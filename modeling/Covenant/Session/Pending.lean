import Covenant.Text.Blank

/-!
# Unfinished input

An input goes on as long as it has more opening than closing brackets.  Brackets inside
double-quoted strings and line comments do not count.
-/

namespace Covenant.Pending

/-- Where in the input a byte stands. -/
inductive Context where
  | code
  | string
  /-- Behind a backslash in a string. -/
  | escape
  /-- A comment up to the end of its line. -/
  | comment
  deriving DecidableEq, Repr

/-- The number of brackets that open less the number of those that close. -/
def balance : Context → Bytes → Int
  | _, [] => 0
  | .escape, _ :: rest => balance .string rest
  | .string, b :: rest =>
    if b = 0x5C then balance .escape rest
    else if b = 0x22 then balance .code rest
    else balance .string rest
  | .comment, b :: rest => if b = 10 then balance .code rest else balance .comment rest
  | .code, 0x2F :: 0x2F :: rest => balance .comment rest
  | .code, b :: rest =>
    if b = 0x22 then balance .string rest
    else if b = 0x7B ∨ b = 0x5B ∨ b = 0x28 then balance .code rest + 1
    else if b = 0x7D ∨ b = 0x5D ∨ b = 0x29 then balance .code rest - 1
    else balance .code rest

def needsMore (input : Bytes) : Bool :=
  0 < balance .code input.trim

end Covenant.Pending
