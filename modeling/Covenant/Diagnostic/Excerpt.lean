import Covenant.Text.Bytes

/-!
# Excerpts

The line of a source that an error is about, with a pointer below it.  The blanks before the line
are cut off, and a tab counts as eight columns.
-/

namespace Covenant.Excerpt

def width (b : UInt8) : Nat :=
  if b = 9 then 8 else 1

def columns (s : Bytes) : Nat :=
  (s.map width).foldr (· + ·) 0

def margin (line : Bytes) : Bytes :=
  line.takeWhile fun b => b = 32 ∨ b = 9

def pointer (line : Bytes) (column : Nat) : Bytes :=
  let shift := columns (line.take (column - 1)) - columns (margin line)
  Bytes.replicate shift " " ++ "^"

/-- A line and the pointer to a column of it; without a column, the line alone. -/
def lineText (line : Bytes) (column : Int) : Bytes :=
  "    " ++ line.drop (margin line).length ++ "\n" ++
    if 0 < column then "    " ++ pointer line column.toNat ++ "\n" else []

/-- The excerpt at a position, where lines and columns count from one; empty when there is no such
line. -/
def text (lines : List Bytes) (line column : Int) : Bytes :=
  if 0 < line then
    match lines[line.toNat - 1]? with
    | some l => lineText l column
    | none => []
  else []

end Covenant.Excerpt
