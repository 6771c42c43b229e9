import Covenant.Number.Binary64
import Covenant.Text.Bytes

/-!
# Shortest decimals

The fewest digits that still round to a given binary number, and of those the nearest to it.
-/

namespace Covenant

/-- A decimal `0.d₁d₂d₃… · 10^point`. -/
structure Decimal where
  negative : Bool
  /-- The digits, without leading or trailing zeros; none for zero. -/
  digits : List Nat
  /-- The place of the point, counted from the first digit. -/
  point : Int
  deriving DecidableEq, Repr, Inhabited

namespace Decimal

def digitsOf (n : Nat) : List Nat :=
  (Nat.toDigits 10 n).map fun c => c.toNat - 48

def ofDigits (negative : Bool) (digits : List Nat) (point : Int) : Decimal :=
  ⟨negative, (digits.reverse.dropWhile (· = 0)).reverse, point⟩

/-- The quotient `num / den`, with `num` multiplied by a power of ten. -/
def shift (num den : Nat) (power : Int) : Nat × Nat :=
  if 0 ≤ power then (num * Nat.pow 10 power.toNat, den)
  else (num, den * Nat.pow 10 (-power).toNat)

/-- The interval of the reals that round to a number, and the number itself, over one
denominator. -/
structure Cell where
  low : Nat
  mid : Nat
  high : Nat
  den : Nat
  closed : Bool

def Cell.ofBinary (significand : Nat) (exponent : Int) : Cell :=
  let below := if significand = Nat.pow 2 52 ∧ Binary64.minExponent < exponent then 1 else 2
  let up := (exponent - 2).toNat
  let down := (2 - exponent).toNat
  { low := (4 * significand - below) * Nat.pow 2 up
    mid := 4 * significand * Nat.pow 2 up
    high := (4 * significand + 2) * Nat.pow 2 up
    den := Nat.pow 2 down
    closed := significand % 2 = 0 }

def Cell.holds (c : Cell) (multiple : Nat) (power : Int) : Bool :=
  let (m, d) := shift multiple 1 power
  let x := m * c.den
  if c.closed then c.low * d ≤ x && x ≤ c.high * d else c.low * d < x && x < c.high * d

/-- The number of digits before the point of a positive quotient; zero or negative when it is
below one. -/
def magnitude (num den : Nat) : Int :=
  let guess : Int := (digitsOf num).length - (digitsOf den).length
  let (n, d) := shift num den (-guess)
  if d ≤ n then guess + 1 else guess

/-- The nearest decimal with `count` digits that lies in the interval. -/
def Cell.nearest? (c : Cell) (top : Int) (count : Nat) : Option Nat :=
  let power := top - count
  let (n, d) := shift c.mid c.den (-power)
  let floor := n / d
  let nearest := Binary64.roundHalfEven n d
  let other := if nearest = floor then floor + 1 else floor
  if c.holds nearest power then some nearest
  else if c.holds other power then some other
  else none

/-- The least number of digits from `count` on, with at most `fuel` tries. -/
def Cell.search (c : Cell) (top : Int) : (fuel count : Nat) → Nat × Nat
  | 0, count => ((c.nearest? top count).getD 0, count)
  | fuel + 1, count =>
    match c.nearest? top count with
    | some m => (m, count)
    | none => c.search top fuel (count + 1)

def ofBinary (negative : Bool) (significand : Nat) (exponent : Int) : Decimal :=
  if significand = 0 then ⟨negative, [], 0⟩
  else
    let c := Cell.ofBinary significand exponent
    let top := magnitude c.mid c.den
    let (m, count) := c.search top 16 1
    let digits := digitsOf m
    ofDigits negative digits (top + (digits.length - count : Int))

/-! ### Writing -/

def digitByte (d : Nat) : UInt8 :=
  UInt8.ofNat (48 + d)

def sign (d : Decimal) : Bytes :=
  if d.negative then "-" else []

def positional (d : Decimal) : Bytes :=
  let whole : Bytes :=
    if 0 < d.point then
      let n := d.point.toNat
      (d.digits.take n).map digitByte ++ List.replicate (n - d.digits.length) 48
    else "0"
  let fraction : Bytes :=
    List.replicate (-d.point).toNat 48 ++ (d.digits.drop d.point.toNat).map digitByte
  d.sign ++ whole ++ (if fraction.isEmpty then [] else Bytes.ofString "." ++ fraction)

/-- One digit before the point, and the exponent with a sign and at least two digits. -/
def scientific (d : Decimal) : Bytes :=
  let fraction := (d.digits.drop 1).map digitByte
  let e := if d.digits.isEmpty then 0 else d.point - 1
  let size := Bytes.ofNat e.natAbs
  d.sign ++ [digitByte (d.digits.headD 0)] ++
    (if fraction.isEmpty then [] else Bytes.ofString "." ++ fraction) ++
    (if e < 0 then Bytes.ofString "e-" else Bytes.ofString "e+") ++
    (if size.length < 2 then Bytes.ofString "0" else []) ++ size

/-- Scientific for exponents below -4 and from 6 on, else positional. -/
def general (d : Decimal) : Bytes :=
  let e := if d.digits.isEmpty then 0 else d.point - 1
  if e < -4 ∨ 6 ≤ e then d.scientific else d.positional

end Decimal

/-- The number written by the given rule; numbers that are not finite have names. -/
def Binary64.write (rule : Decimal → Bytes) : Binary64 → Bytes
  | finite s m e => rule (Decimal.ofBinary s m e)
  | infinite true => "-Inf"
  | infinite false => "+Inf"
  | nan => "NaN"

end Covenant
