import Covenant.Number.Numeral
import Covenant.Text.Blank
import Covenant.Text.Case

/-!
# Sizes

A number of bytes as it stands in a configuration: digits and perhaps a unit, in either case.
Only the digits in front are read, so that `1.5MB` is one megabyte.
-/

namespace Covenant.Size

/-- Why a text is no size. -/
inductive Error where
  /-- There is a unit, and no number in front of it. -/
  | number (text : Bytes)
  /-- There is neither a unit nor a number. -/
  | format (text : Bytes)
  deriving DecidableEq, Repr, Inhabited

def Error.message : Error → Bytes
  | number text => "invalid size number: " ++ text
  | format text => "invalid size format: " ++ text ++ " (use B, KB, MB, or GB suffix)"

def units : List (Bytes × Int64) :=
  [("GB", 1073741824), ("MB", 1048576), ("KB", 1024), ("B", 1)]

/-- The integer at the start of a text, when there is one of 64 bits. -/
def leading? (s : Bytes) : Option Int64 :=
  let (negative, rest) := Numeral.sign s
  let digits := rest.takeWhile fun b => (Numeral.digit? b).isSome
  Numeral.int64? (if negative then 45 :: digits else digits)

/-- Read a size.  An empty text is zero, and a product beyond 64 bits wraps. -/
def parse (s : Bytes) : Except Error Int64 :=
  if s.isEmpty then .ok 0
  else
    let s := s.upper.trim
    match units.find? fun (u, _) => s.hasSuffix u with
    | some (u, factor) =>
      let number := (s.stripSuffix u).trim
      match leading? number with
      | some n => .ok (n * factor)
      | none => .error (.number number)
    | none =>
      match leading? s with
      | some n => .ok n
      | none => .error (.format s)

end Covenant.Size
