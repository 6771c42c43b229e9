import Covenant.Number.Numeral

/-!
# Durations

Spans of time as text: a sum of decimal numbers with units, such as `1m30s` or `-1.5h`.
-/

namespace Covenant

/-- A span of time of less than three hundred years either way. -/
structure Duration where
  nanoseconds : Int64
  deriving DecidableEq, Repr, Inhabited

namespace Duration

def ofMilliseconds (n : Int64) : Duration :=
  ⟨n * 1000000⟩

def isNegative (d : Duration) : Bool :=
  d.nanoseconds < 0

/-! ### Writing -/

/-- A number in steps of `10 ^ -places`: its digits before and behind the point, without zeros at
the end. -/
def fixed (places n : Nat) : Bytes :=
  let digits := Bytes.ofNat (Nat.pow 10 places + n % Nat.pow 10 places) |>.drop 1
  let digits := (digits.reverse.dropWhile (· = 48)).reverse
  Bytes.ofNat (n / Nat.pow 10 places) ++ if digits.isEmpty then [] else 46 :: digits

def magnitudeText (n : Nat) : Bytes :=
  if n = 0 then "0s"
  else if n < 1000 then Bytes.ofNat n ++ "ns"
  else if n < 1000000 then fixed 3 n ++ "µs"
  else if n < 1000000000 then fixed 6 n ++ "ms"
  else
    let minutes := n / 60000000000
    let seconds := fixed 9 (n % 60000000000) ++ "s"
    if minutes = 0 then seconds
    else if minutes < 60 then Bytes.ofNat minutes ++ "m" ++ seconds
    else Bytes.ofNat (minutes / 60) ++ "h" ++ Bytes.ofNat (minutes % 60) ++ "m" ++ seconds

def text (d : Duration) : Bytes :=
  let n := d.nanoseconds.toInt
  (if n < 0 then Bytes.ofString "-" else []) ++ magnitudeText n.natAbs

/-! ### Reading -/

def units : List (Bytes × Nat) :=
  [("ns", 1), ("us", 1000), ("µs", 1000), ("μs", 1000), ("ms", 1000000), ("s", 1000000000),
   ("m", 60000000000), ("h", 3600000000000)]

def limit : Nat := Nat.pow 2 63

def isDigit (b : UInt8) : Bool :=
  (Numeral.digit? b).isSome

/-- The leading digits of a fraction that fit 63 bits, as a number, and how many these are.  The
digits behind them are lost. -/
def fraction : (value places : Nat) → Bytes → Nat × Nat
  | value, places, [] => (value, places)
  | value, places, b :: rest =>
    let next := 10 * value + (b.toNat - 48)
    if (limit - 1) / 10 < value ∨ limit < next then (value, places)
    else fraction next (places + 1) rest

/-- The share of a unit that a fraction makes: the product of the fraction's digits and of the
unit's share per digit, each rounded to a floating-point number, without what is behind the
point. -/
def share (unit value places : Nat) : Nat :=
  let product := do
    (← Binary64.ofRatio false value 1).times (← Binary64.ofRatio false unit (Nat.pow 10 places))
  (product.map Binary64.floor).getD 0

/-- One number with its unit, in nanoseconds, and the rest of the text. -/
def term? (s : Bytes) : Option (Nat × Bytes) := do
  let whole := s.takeWhile isDigit
  let rest := s.dropWhile isDigit
  let (digits, rest) := match rest with
    | 46 :: rest => (rest.takeWhile isDigit, rest.dropWhile isDigit)
    | _ => ([], rest)
  if whole.isEmpty && digits.isEmpty then none
  let n ← if whole.isEmpty then some 0 else Numeral.nat? whole
  let name := rest.takeWhile fun b => b ≠ 46 ∧ !isDigit b
  let (_, unit) ← units.find? fun (u, _) => u = name
  if limit / unit < n then none
  let (value, places) := fraction 0 0 digits
  let total := n * unit + if 0 < value then share unit value places else 0
  if limit < total then none
  return (total, rest.drop name.length)

def total? (sum : Nat) (s : Bytes) : Option Nat :=
  if s.isEmpty then some sum
  else match term? s with
    | none => none
    | some (n, rest) =>
      let sum := (sum + n) % Nat.pow 2 64
      if limit < sum then none
      else if _h : rest.length < s.length then total? sum rest else none
termination_by s.length

/-- Read a duration: an optional sign, and a sum of terms or a bare zero. -/
def parse? (s : Bytes) : Option Duration :=
  let (negative, rest) := Numeral.sign s
  if rest = [48] then some ⟨0⟩
  else if rest.isEmpty then none
  else (total? 0 rest).bind fun n =>
    if negative then some ⟨Int64.ofInt (-(n : Int))⟩
    else if n < limit then some ⟨Int64.ofInt n⟩ else none

end Duration

end Covenant
