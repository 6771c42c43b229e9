import Covenant.Text.Quoted

/-!
# Forms

Clarity code is made of forms: atoms, strings and lists in parentheses.  A list says how each of
its items is set off from what stands before it; the indentation follows from the nesting when the
form is printed.
-/

namespace Covenant

/-- How an item of a list is set off. -/
inductive Gap where
  /-- Not at all. -/
  | glued
  /-- By a blank. -/
  | space
  /-- By a line break; the item is one level deeper. -/
  | line
  /-- By a line break; the item is aligned with the first one of the list. -/
  | aligned
  deriving DecidableEq, Repr, Inhabited

/-- A form of Clarity code. -/
inductive Form where
  | atom (text : Bytes)
  /-- A string with the given contents. -/
  | quoted (contents : Bytes)
  | list (items : List (Gap × Form))
  deriving Repr, Inhabited

namespace Form

def indent (depth : Nat) : Bytes :=
  Bytes.replicate depth "  "

mutual

def print (depth : Nat) : Form → Bytes
  | atom text => text
  | quoted contents => Quoted.encode contents
  | list items => "(" ++ printItems depth items ++ ")"

def printItems (depth : Nat) : List (Gap × Form) → Bytes
  | [] => []
  | (.glued, f) :: items => f.print depth ++ printItems depth items
  | (.space, f) :: items => " " ++ f.print depth ++ printItems depth items
  | (.line, f) :: items =>
    "\n" ++ indent (depth + 1) ++ f.print (depth + 1) ++ printItems depth items
  | (.aligned, f) :: items =>
    "\n" ++ indent depth ++ " " ++ f.print depth ++ printItems depth items

end

def items (gap : Gap) : List Form → List (Gap × Form)
  | [] => []
  | f :: fs => (.glued, f) :: fs.map (gap, ·)

def row (fs : List Form) : Form :=
  .list (items .space fs)

def apply (function : String) (args : List Form) : Form :=
  row (.atom function :: args)

def pair (name : Bytes) (f : Form) : Form :=
  row [.atom name, f]

/-- A head on the first line and the other items on lines of their own. -/
def stack (head : List Form) (body : List Form) : Form :=
  .list (items .space head ++ body.map (.line, ·))

def unit : Form :=
  .list []

def sequence : List Form → Form
  | [] => unit
  | [f] => f
  | fs => stack [.atom "begin"] fs

end Form

end Covenant
