import Covenant.Diagnostic.Fault
import Covenant.Tree

/-!
# Reading tokens

A `Cursor` stands on a token and sees the one behind it.  A token that is no word of the language
is a fault as soon as it is seen; reading goes on, and the first fault is the one reported.

A parser is a function on cursors that fails with a fault or answers a result and the cursor on
the last token it took.
-/

namespace Covenant

def TokenKind.readable (k : TokenKind) : Bytes :=
  match k with
  | ident => "identifier"
  | int => "integer"
  | float => "float"
  | string => "string"
  | principal => "principal"
  | decorator => "decorator"
  | eof => "end of input"
  | _ =>
    match keywords.find? (·.2 == k) with
    | some (word, _) =>
      if k = kwTrue ∨ k = kwFalse ∨ k = kwNone then "'" ++ k.name ++ "'" else "'" ++ word ++ "'"
    | none => "'" ++ k.name ++ "'"

def Token.display (t : Token) : Bytes :=
  if t.kind = .eof then "end of input"
  else if t.literal.isEmpty then t.kind.readable
  else t.literal

/-- The place right behind the token, counting a byte of its text as a column. -/
def Token.stop (t : Token) : Pos :=
  ⟨t.pos.line, t.pos.column + t.literal.length⟩

def Token.illegalFault (t : Token) : Fault :=
  if t.literal = openString then ⟨.openString, t.pos⟩
  else if t.literal = openComment then ⟨.openComment, t.pos⟩
  else ⟨.illegalChar t.literal, t.pos⟩

/-- A reading position in a token sequence.  The last token repeats for ever. -/
structure Cursor where
  cur : Token
  peek : Token
  rest : List Token
  fault : Option Fault := none
  deriving DecidableEq, Repr, Inhabited

namespace Cursor

/-- Remember the fault of an illegal token, unless there was one before. -/
def note (t : Token) (c : Cursor) : Cursor :=
  if t.kind = .illegal then { c with fault := some (c.fault.getD t.illegalFault) } else c

def advance (c : Cursor) : Cursor :=
  let next := c.rest.headD c.peek
  { c with cur := c.peek, peek := next, rest := c.rest.tail }.note next

def ofTokens : List Token → Cursor
  | [] => ⟨⟨.eof, [], {}⟩, ⟨.eof, [], {}⟩, [], none⟩
  | [t] => ({ cur := t, peek := t, rest := [] : Cursor }).note t
  | t :: u :: rest => (({ cur := t, peek := u, rest : Cursor }).note t).note u

/-- Split the `>>` behind the cursor into two `>`.  What follows it is seen at once. -/
def splitShift (c : Cursor) : Cursor :=
  let second : Token := ⟨.greater, ">", ⟨c.peek.pos.line, c.peek.pos.column + 1⟩⟩
  { c with peek := ⟨.greater, ">", c.peek.pos⟩, rest := second :: c.rest }.note
    (c.rest.headD c.peek)

/-- A bound on the tokens still to be taken, a split `>>` counting twice. -/
def bound (c : Cursor) : Nat :=
  2 * c.rest.length + 4

/-- Scan for the end of an open parenthesis: the tokens behind it, when neither the end of input
nor an illegal token comes first. -/
def closing : (depth : Nat) → List Token → Option (List Token)
  | _, [] => none
  | depth, t :: ts =>
    match t.kind with
    | .lparen => closing (depth + 1) ts
    | .rparen => if depth = 0 then some ts else closing (depth - 1) ts
    | .eof | .illegal => none
    | _ => closing depth ts

def lambdaAhead (c : Cursor) : Bool :=
  match closing 0 (c.peek :: c.rest) with
  | some (t :: _) => t.kind = .arrow
  | _ => false

end Cursor

/-- A parser: it fails with a fault, or answers a result and the cursor on the last token taken. -/
abbrev Parser := StateT Cursor (Except Fault)

namespace Parser

def fail {α : Type} (f : Fault) : Parser α :=
  fun c => .error (c.fault.getD f)

def cur : Parser Token :=
  return (← get).cur

def peek : Parser Token :=
  return (← get).peek

def advance : Parser Unit :=
  modify Cursor.advance

def curIs (k : TokenKind) : Parser Bool :=
  return (← cur).kind = k

def peekIs (k : TokenKind) : Parser Bool :=
  return (← peek).kind = k

/-- Complain about the token behind the cursor: the given kind is expected there. -/
def failExpecting {α : Type} (k : TokenKind) : Parser α := do
  fail ⟨.expected k.readable (← peek).display, (← cur).stop⟩

def failUnexpected {α : Type} : Parser α := do
  let t ← cur
  fail ⟨.unexpectedToken t.display, t.pos⟩

def expect (k : TokenKind) : Parser Token := do
  if ← peekIs k then
    advance
    cur
  else failExpecting k

def optionalSemicolon : Parser Unit := do
  if ← peekIs .semicolon then advance

def manyWithin {α : Type} (item? : Parser (Option α)) : (fuel : Nat) → Parser (List α)
  | 0 => failUnexpected
  | fuel + 1 => do
    match ← item? with
    | none => return []
    | some x => return x :: (← manyWithin item? fuel)

/-- Items until `item?` finds none.  Every item takes a token, so the bound is never met. -/
def many {α : Type} (item? : Parser (Option α)) : Parser (List α) := do
  manyWithin item? (← get).bound

/-- At most `fuel` items with commas between them, and what closes them. -/
def separatedWithin {α : Type} (item : Parser α) (close : Parser Unit) :
    (fuel : Nat) → Parser (List α)
  | 0 => failUnexpected
  | fuel + 1 => do
    let x ← item
    if ← peekIs .comma then
      advance
      return x :: (← separatedWithin item close fuel)
    else
      close
      return [x]

/-- One or more items with commas between them, and what closes them. -/
def separated {α : Type} (item : Parser α) (close : Parser Unit) : Parser (List α) := do
  separatedWithin item close (← get).bound

/-- What follows the items read so far, up to the closing token.  A separator may stand before
it. -/
def tailWithin {α : Type} (separators : List TokenKind) (close : TokenKind) (item : Parser α) :
    (fuel : Nat) → Parser (List α)
  | 0 => failUnexpected
  | fuel + 1 => do
    if separators.contains (← peek).kind then
      advance
      if ← peekIs close then
        advance
        return []
      else
        let x ← item
        return x :: (← tailWithin separators close item fuel)
    else
      discard (expect close)
      return []

def tail {α : Type} (separators : List TokenKind) (close : TokenKind) (item : Parser α) :
    Parser (List α) := do
  tailWithin separators close item (← get).bound

/-- Items with separators between them and perhaps behind them, up to the closing token. -/
def delimited {α : Type} (separators : List TokenKind) (close : TokenKind) (item : Parser α) :
    Parser (List α) := do
  if ← peekIs close then
    advance
    return []
  else
    let x ← item
    return x :: (← tail separators close item)

end Parser

end Covenant
