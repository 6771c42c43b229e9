/-!
# Binary floating-point numbers

The 64-bit format: a sign, a significand of at most 53 bits and an exponent.  Numbers are exact
values here, so rounding is the only place where anything is lost.
-/

namespace Covenant

/-- A floating-point number.  A finite one is the significand times a power of two; the
significand has 53 bits unless the exponent is the least one. -/
inductive Binary64 where
  | finite (negative : Bool) (significand : Nat) (exponent : Int)
  | infinite (negative : Bool)
  | nan
  deriving DecidableEq, Repr, Inhabited

namespace Binary64

def minExponent : Int := -1074

def maxExponent : Int := 971

def neg : Binary64 → Binary64
  | finite s m e => finite (!s) m e
  | infinite s => infinite (!s)
  | nan => nan

/-- The quotient divided by a power of two, as a numerator and a denominator. -/
def scale (num den : Nat) (exponent : Int) : Nat × Nat :=
  if 0 ≤ exponent then (num, den * Nat.pow 2 exponent.toNat)
  else (num * Nat.pow 2 (-exponent).toNat, den)

/-- A quotient rounded to the nearest natural number, a tie to the even one. -/
def roundHalfEven (num den : Nat) : Nat :=
  let q := num / den
  let r := num % den
  if den < 2 * r ∨ (2 * r = den ∧ q % 2 = 1) then q + 1 else q

/-- The exponent at which the positive quotient has a significand of 53 bits, or the least
exponent. -/
def exponentFor (num den : Nat) : Int :=
  let e := max ((num.log2 : Int) - den.log2 - 53) minExponent
  let (n, d) := scale num den e
  if Nat.pow 2 53 ≤ n / d then e + 1 else e

def ofRatio (negative : Bool) (num den : Nat) : Option Binary64 :=
  if num = 0 then some (finite negative 0 minExponent)
  else
    let e := exponentFor num den
    let (n, d) := scale num den e
    let q := roundHalfEven n d
    let (q, e) := if q = Nat.pow 2 53 then (Nat.pow 2 52, e + 1) else (q, e)
    if maxExponent < e then none else some (finite negative q e)

/-- The magnitude of a finite number as a numerator and a denominator. -/
def ratio : Binary64 → Nat × Nat
  | finite _ m e => scale m 1 (-e)
  | _ => (0, 1)

def times (x y : Binary64) : Option Binary64 :=
  ofRatio false (x.ratio.1 * y.ratio.1) (x.ratio.2 * y.ratio.2)

def plus (x y : Binary64) : Option Binary64 :=
  ofRatio false (x.ratio.1 * y.ratio.2 + y.ratio.1 * x.ratio.2) (x.ratio.2 * y.ratio.2)

def floor (x : Binary64) : Nat :=
  x.ratio.1 / x.ratio.2

end Binary64

end Covenant
