import Covenant.Number.Binary64
import Covenant.Text.Bytes

/-!
# Amounts of data for people

A number of bytes in the largest unit of a power of thousand that fits, with one place behind the
point when there is one before it.
-/

namespace Covenant.Volume

def units : List Bytes :=
  ["B", "kB", "MB", "GB", "TB", "PB", "EB"]

def rank (most n : Nat) : Nat :=
  match most with
  | 0 => 0
  | most + 1 => if n < 1000 then 0 else rank most (n / 1000) + 1

/-- Tenths of a unit, rounded.  The quotient, ten times it and the sum with a half are
floating-point numbers. -/
def tenths (n unit : Nat) : Nat :=
  let value := do
    let quotient ← Binary64.ofRatio false n unit
    let product ← quotient.times (← Binary64.ofRatio false 10 1)
    product.plus (← Binary64.ofRatio false 1 2)
  (value.map Binary64.floor).getD 0

def text (n : Nat) : Bytes :=
  if n < 10 then Bytes.ofNat n ++ " B"
  else
    let r := rank 6 n
    let t := tenths n (Nat.pow 1000 r)
    let number :=
      if t < 100 then Bytes.ofNat (t / 10) ++ "." ++ Bytes.ofNat (t % 10)
      else Bytes.ofNat (Binary64.roundHalfEven t 10)
    number ++ " " ++ units.getD r []

end Covenant.Volume
