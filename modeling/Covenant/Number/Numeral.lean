import Covenant.Number.Binary64
import Covenant.Text.Bytes

/-!
# Numerals

Reading numbers from text.
-/

namespace Covenant.Numeral

def digit? (b : UInt8) : Option Nat :=
  if 48 ≤ b ∧ b ≤ 57 then some (b.toNat - 48) else none

def hexDigit? (b : UInt8) : Option Nat :=
  if 48 ≤ b ∧ b ≤ 57 then some (b.toNat - 48)
  else if 97 ≤ b ∧ b ≤ 102 then some (b.toNat - 87)
  else if 65 ≤ b ∧ b ≤ 70 then some (b.toNat - 55)
  else none

def sign : Bytes → Bool × Bytes
  | 43 :: rest => (false, rest)
  | 45 :: rest => (true, rest)
  | s => (false, s)

def nat? (s : Bytes) : Option Nat :=
  if s.isEmpty then none
  else s.foldl (fun n b => n.bind fun n => (digit? b).map (10 * n + ·)) (some 0)

def int? (s : Bytes) : Option Int :=
  let (negative, rest) := sign s
  (nat? rest).map fun n => if negative then -(n : Int) else n

def int64? (s : Bytes) : Option Int64 :=
  (int? s).bind fun i =>
    if Int64.minValue.toInt ≤ i ∧ i ≤ Int64.maxValue.toInt then some (Int64.ofInt i) else none

/-! ### Fractions -/

/-- What the underscore rule remembers of the byte before. -/
inductive Last where
  | start | digit | underscore | other
  deriving DecidableEq

/-- Underscores stand between digits only; a base mark in front counts as a digit. -/
def underscoresFit (isDigit : UInt8 → Bool) : (last : Last) → Bytes → Bool
  | last, [] => last ≠ .underscore
  | last, b :: rest =>
    if isDigit b then underscoresFit isDigit .digit rest
    else if b = 95 then last = .digit && underscoresFit isDigit .underscore rest
    else last ≠ .underscore && underscoresFit isDigit .other rest

/-- The digits of a number with a point: their value, how many there are, and how many of them
stand behind the point. -/
structure Digits where
  value : Nat := 0
  any : Bool := false
  point : Bool := false
  behind : Nat := 0

def digits (base : Nat) (value? : UInt8 → Option Nat) : Digits → Bytes → Digits × Bytes
  | ds, [] => (ds, [])
  | ds, b :: rest =>
    if b = 95 then digits base value? ds rest
    else if b = 46 then
      if ds.point then (ds, b :: rest) else digits base value? { ds with point := true } rest
    else match value? b with
      | some d =>
        digits base value?
          { ds with
            value := base * ds.value + d, any := true,
            behind := if ds.point then ds.behind + 1 else ds.behind } rest
      | none => (ds, b :: rest)

/-- The digits of an exponent.  Beyond five digits the size does not matter. -/
def exponentDigits : Nat → Bytes → Nat × Bytes
  | e, [] => (e, [])
  | e, b :: rest =>
    if b = 95 then exponentDigits e rest
    else match digit? b with
      | some d => exponentDigits (if e < 10000 then 10 * e + d else e) rest
      | none => (e, b :: rest)

def exponent? (s : Bytes) : Option Int :=
  let (negative, rest) := sign s
  match rest with
  | b :: _ =>
    if (digit? b).isSome then
      match exponentDigits 0 rest with
      | (e, []) => some (if negative then -(e : Int) else e)
      | _ => none
    else none
  | [] => none

/-- The value of digits and an exponent of the given base; digits behind the point count `places`
steps each. -/
def assemble (negative : Bool) (base places : Nat) (ds : Digits) (e : Int) : Option Binary64 :=
  let power := e - places * ds.behind
  if 0 ≤ power then Binary64.ofRatio negative (ds.value * Nat.pow base power.toNat) 1
  else Binary64.ofRatio negative ds.value (Nat.pow base (-power).toNat)

def decimal? (negative : Bool) (s : Bytes) : Option Binary64 :=
  let (ds, rest) := digits 10 digit? {} s
  if !ds.any || !underscoresFit (fun b => (digit? b).isSome) .start s then none
  else match rest with
    | [] => assemble negative 10 1 ds 0
    | b :: rest =>
      if b = 101 ∨ b = 69 then (exponent? rest).bind (assemble negative 10 1 ds) else none

/-- A hexadecimal fraction behind its base mark; the exponent is a power of two and required. -/
def hexadecimal? (negative : Bool) (s : Bytes) : Option Binary64 :=
  let (ds, rest) := digits 16 hexDigit? {} s
  if !ds.any || !underscoresFit (fun b => (hexDigit? b).isSome) .digit s then none
  else match rest with
    | b :: rest =>
      if b = 112 ∨ b = 80 then (exponent? rest).bind (assemble negative 2 4 ds) else none
    | [] => none

/-- The word in small letters; only ASCII letters have two forms here. -/
def small (s : Bytes) : Bytes :=
  s.map fun b => if 65 ≤ b ∧ b ≤ 90 then b + 32 else b

/-- A floating-point number.  A number out of range is refused, one too small is zero. -/
def binary64? (s : Bytes) : Option Binary64 :=
  let (negative, rest) := sign s
  let word := small rest
  if word = Bytes.ofString "inf" ∨ word = Bytes.ofString "infinity" then some (.infinite negative)
  else if small s = Bytes.ofString "nan" then some .nan
  else match rest with
    | 48 :: x :: y :: more =>
      if x = 120 ∨ x = 88 then hexadecimal? negative (y :: more) else decimal? negative rest
    | _ => decimal? negative rest

end Covenant.Numeral
