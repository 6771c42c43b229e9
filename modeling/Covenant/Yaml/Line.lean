import Covenant.Text.Bytes

/-!
# Lines of a document

A document is read line by line.  A line that has been read in part is a line again, with the
column at which the rest starts.
-/

namespace Covenant.Yaml

def isBlank (b : UInt8) : Bool :=
  b == 32 || b == 9

def startsBlank (s : Bytes) : Bool :=
  s.head?.all isBlank

/-- A line, or what is left of one. -/
structure Line where
  /-- The column of the first byte; in a whole line, the number of spaces before it. -/
  column : Nat := 0
  text : Bytes := []
  deriving DecidableEq, Repr, Inhabited

namespace Line

def ofBytes (s : Bytes) : Line :=
  ⟨(s.takeWhile (· = 32)).length, s.dropWhile (· = 32)⟩

def drop (l : Line) (n : Nat) : Line :=
  ⟨l.column + n, l.text.drop n⟩

def dropBlanks (l : Line) : Line :=
  l.drop (l.text.takeWhile isBlank).length

def isDone (l : Line) : Bool :=
  l.text.isEmpty || l.text.head? == some 35

def isItem (l : Line) : Bool :=
  match l.text with
  | 45 :: rest => startsBlank rest
  | _ => false

def isMark (b : UInt8) (l : Line) : Bool :=
  l.column == 0 && l.text.take 3 == [b, b, b] && startsBlank (l.text.drop 3)

def endsDocument (l : Line) : Bool :=
  l.isMark 45 || l.isMark 46

end Line

/-- The lines of a text, with `taken` the bytes of the current line in reverse.  A line ends with
a line feed, a carriage return or both. -/
def splitLines : (taken : Bytes) → Bytes → List Bytes
  | taken, [] => [taken.reverse]
  | taken, 13 :: 10 :: rest => taken.reverse :: splitLines [] rest
  | taken, b :: rest =>
    if b = 10 ∨ b = 13 then taken.reverse :: splitLines [] rest else splitLines (b :: taken) rest

def lines (s : Bytes) : List Line :=
  (splitLines [] s).map Line.ofBytes

/-- The first line with more than a comment, where tabs do not count. -/
def nextLine : List Line → List Line
  | [] => []
  | l :: rest => if l.isDone then nextLine rest else l :: rest

def skipBlank : List Line → List Line
  | [] => []
  | l :: rest => if l.dropBlanks.isDone then skipBlank rest else l.dropBlanks :: rest

def endLine : List Line → Option (List Line)
  | [] => some []
  | l :: rest => if l.dropBlanks.isDone then some rest else none

end Covenant.Yaml
