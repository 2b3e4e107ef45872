/-!
# Numbers in decimal

How a float is written: its bits are read as a binary fraction, the decimal fraction with the
fewest digits that reads back is found, and its digits are set with a point or an exponent.
-/

namespace Betweenness

/-! ### Floats as binary fractions

`FloatValue.unpack` reads the bits of a float of any width: a sign, an exponent field and a
fraction. A finite float is `mantissa * 2 ^ exponent`. What lies nearer to it than to any other
float of its width are the reals within half a step; the step below is half as wide as the step
above where the fraction is zero and a smaller exponent is left. -/

/-- The magnitude of a finite float. -/
structure Binary where
  mantissa : Nat
  exponent : Int
  /-- Whether the next smaller float is half as far away as the next larger one. -/
  narrowBelow : Bool
  deriving DecidableEq, Repr

/-- What the bits of a float stand for. -/
inductive FloatValue where
  | nan
  | infinite (negative : Bool)
  | finite (negative : Bool) (magnitude : Binary)
  deriving DecidableEq, Repr

/-- Read the bits of a float that has the given number of bits for fraction and exponent. -/
def FloatValue.unpack (fractionBits exponentBits bits : Nat) : FloatValue :=
  let negative := bits.testBit (fractionBits + exponentBits)
  let fraction := bits % (1 <<< fractionBits)
  let field := (bits >>> fractionBits) % (1 <<< exponentBits)
  let bias : Nat := (1 <<< (exponentBits - 1)) - 1
  let offset : Int := 1 - bias - fractionBits
  if field + 1 = 1 <<< exponentBits then
    if fraction = 0 then infinite negative else nan
  else if field = 0 then
    finite negative ⟨fraction, offset, false⟩
  else
    finite negative ⟨(1 <<< fractionBits) + fraction, offset + field - 1, fraction = 0 ∧ 1 < field⟩

/-- The value of a double precision float. -/
def FloatValue.ofDouble (x : Float) : FloatValue := unpack 52 11 x.toBits.toNat

/-- The value of a single precision float. -/
def FloatValue.ofSingle (x : Float32) : FloatValue := unpack 23 8 x.toBits.toNat

/-! ### The fewest digits that read back

`Binary.shortest` is the decimal fraction with the fewest digits among those that a reader, who
rounds to the nearest float, takes back to the same float; among those with equally many digits
it is the nearest to the float, and of two equally near the even one.

The search goes over decimal grids, the multiples of `10 ^ k`, from coarse to fine. If any point
of a grid reads back, so does one of the two grid points around the float, so two tests decide
about a grid. All comparisons are between natural numbers: a point `c` of the grid lies at
`c * point`, the float at `4 * mantissa * quarter`, for two factors that depend on the grid. -/

/-- A decimal fraction `digits * 10 ^ exponent`. -/
structure Decimal where
  digits : Nat
  exponent : Int
  deriving DecidableEq, Repr

/-- The same fraction without zeros at the end of its digits. -/
def Decimal.trim (digits : Nat) (exponent : Int) : Decimal :=
  if 0 < digits ∧ digits % 10 = 0 then trim (digits / 10) (exponent + 1)
  else ⟨digits, exponent⟩
termination_by digits

/-- The number of decimal digits of a natural number; zero has none. -/
def decimalLength (n : Nat) : Nat := if n = 0 then 0 else (Nat.toDigits 10 n).length

namespace Binary

/-- The factor that brings the points of a grid to the scale of `quarter`. -/
def point (b : Binary) (k : Int) : Nat := Nat.pow 10 k.toNat <<< (2 - b.exponent).toNat

/-- A quarter of the last binary place, on the scale of `point`. -/
def quarter (b : Binary) (k : Int) : Nat := Nat.pow 10 (-k).toNat <<< (b.exponent - 2).toNat

/-- Whether a point of a grid reads back: it lies within half a step of the float, where the ends
belong to floats with an even mantissa. -/
def readsBack (b : Binary) (k : Int) (c : Nat) : Bool :=
  let place := c * b.point k
  let low := (4 * b.mantissa - if b.narrowBelow then 1 else 2) * b.quarter k
  let high := (4 * b.mantissa + 2) * b.quarter k
  if b.mantissa % 2 = 0 then low ≤ place && place ≤ high else low < place && place < high

/-- The grid point at or below the float. -/
def floorOn (b : Binary) (k : Int) : Nat := 4 * b.mantissa * b.quarter k / b.point k

/-- Whether the grid point above the float is the better of the two around it. -/
def prefersAbove (b : Binary) (k : Int) : Bool :=
  let c := b.floorOn k
  let place := 4 * b.mantissa * b.quarter k
  let below := place - c * b.point k
  let above := (c + 1) * b.point k - place
  above < below || (above = below && c % 2 = 1)

/-- The point of a grid that reads back, the better one if there are two. -/
def onGrid? (b : Binary) (k : Int) : Option Nat :=
  let c := b.floorOn k
  match b.readsBack k c, b.readsBack k (c + 1) with
  | true, true => some (if b.prefersAbove k then c + 1 else c)
  | true, false => some c
  | false, true => some (c + 1)
  | false, false => none

/-- The exponent of the first decimal digit. -/
def leadingExponent (b : Binary) : Int :=
  let whole := b.floorOn 0
  if whole = 0 then
    -(decimalLength ((b.point 0 - 1) / (4 * b.mantissa * b.quarter 0)) : Int)
  else decimalLength whole - 1

/-- The first grid with a point that reads back, among the given number of grids from `10 ^ k`
down. -/
def firstOnGrid (b : Binary) : (grids : Nat) → (k : Int) → Decimal
  | 0, k => .trim (b.floorOn k) k
  | grids + 1, k =>
    match b.onGrid? k with
    | some c => .trim c k
    | none => firstOnGrid b grids (k - 1)

/-- The decimal fraction with the fewest digits that reads back. Seventeen digits are always
enough for floats of up to 53 bits. -/
def shortest (b : Binary) : Decimal :=
  if b.mantissa = 0 then ⟨0, 0⟩ else b.firstOnGrid 17 b.leadingExponent

end Binary

/-! ### Numbers as text

Two ways to write a fraction: `PointStyle.write` with all its digits, in positional form or with
an exponent, and `writeFixed` with a fixed number of decimal places.

A positional number always has a point with a digit on both sides. In exponential form there is
one digit before the point, and no point if that is the only digit; the exponent has a sign in
front, also if it is positive, and no zeros after the sign. -/

/-- Which numbers are written in positional form: those whose point is more than `above` places to
the right of the first digit (negative places are to the left), and at most `upTo`. -/
structure PointStyle where
  above : Int
  upTo : Int

/-- A text of zeros. -/
def zeros (n : Nat) : String := String.ofList (List.replicate n '0')

/-- An exponent of ten with its mark and its sign. -/
def exponentText (e : Int) : String := (if e < 0 then "e-" else "e+") ++ toString e.natAbs

/-- The text of a decimal fraction in a style. -/
def PointStyle.write (style : PointStyle) (d : Decimal) : String :=
  let digits := Nat.toDigits 10 d.digits
  let text := String.ofList digits
  let place : Int := digits.length + d.exponent
  if 0 ≤ d.exponent ∧ place ≤ style.upTo then text ++ zeros d.exponent.toNat ++ ".0"
  else if 0 < place ∧ place ≤ style.upTo then
    String.ofList (digits.take place.toNat) ++ "." ++ String.ofList (digits.drop place.toNat)
  else if style.above < place ∧ place ≤ 0 then "0." ++ zeros (-place).toNat ++ text
  else
    let fraction := match digits.drop 1 with
      | [] => ""
      | rest => "." ++ String.ofList rest
    String.ofList (digits.take 1) ++ fraction ++ exponentText (place - 1)

/-- A quotient rounded to a whole number, a half to the even neighbour. -/
def roundHalfEven (num den : Nat) : Nat :=
  let q := num / den
  let r := num % den
  if den < 2 * r ∨ (den = 2 * r ∧ q % 2 = 1) then q + 1 else q

/-- Rounding moves a quotient by half a unit at most. -/
theorem roundHalfEven_near (num den : Nat) (h : 0 < den) :
    2 * (roundHalfEven num den * den) ≤ 2 * num + den ∧
      2 * num ≤ 2 * (roundHalfEven num den * den) + den := by
  have hsplit : den * (num / den) + num % den = num := Nat.div_add_mod num den
  have hlt : num % den < den := Nat.mod_lt num h
  rw [Nat.mul_comm den] at hsplit
  unfold roundHalfEven
  dsimp only
  split
  · rw [Nat.add_mul, Nat.one_mul]
    omega
  · omega

/-- A text filled up on the left to a width. -/
def padLeft (width : Nat) (fill : Char) (text : String) : String :=
  String.ofList (List.replicate (width - text.length) fill) ++ text

/-- The quotient of two natural numbers with a fixed number of decimal places, at least one. -/
def writeFixed (places num den : Nat) : String :=
  let unit := Nat.pow 10 places
  let scaled := roundHalfEven (num * unit) den
  toString (scaled / unit) ++ "." ++ padLeft places '0' (toString (scaled % unit))

/-- A float with a fixed number of decimal places. -/
def FloatValue.writeFixed (places : Nat) : FloatValue → String
  | nan => "NaN"
  | infinite negative => if negative then "-inf" else "inf"
  | finite negative b =>
    let text := Betweenness.writeFixed places (b.mantissa <<< b.exponent.toNat)
      (1 <<< (-b.exponent).toNat)
    if negative then "-" ++ text else text

/-- A finite float with the fewest digits that read back. -/
def FloatValue.write? (style : PointStyle) : FloatValue → Option String
  | finite negative b =>
    let text := style.write b.shortest
    some (if negative then "-" ++ text else text)
  | nan | infinite _ => none

end Betweenness
