import Covenant.Text.Case
import Covenant.Tree.Cursor

/-!
# The recursive rules, and the grammar of types

A rule that contains itself, directly or through others, is a field of `Grammar`; the rules are
written over a given grammar for what they contain.  Every recursive use comes after a token has
been taken, so the rules nest at most as deep as there are tokens.

Types are names, `list<T>`, `optional<T>`, `response<T, E>` and tuples of named types.
-/

namespace Covenant

/-- The parsers of the rules that recur. -/
structure Grammar where
  type : Parser Tree
  expression : Parser Tree
  conditional : Parser Tree
  unary : Parser Tree
  statement : Parser Tree

namespace Grammar

def empty : Grammar :=
  ⟨Parser.failUnexpected, Parser.failUnexpected, Parser.failUnexpected, Parser.failUnexpected,
   Parser.failUnexpected⟩

open Covenant.Parser

def constructor? (name : Bytes) : Option (Rule × Nat) :=
  let word := name.lower
  if word = Bytes.ofString "list" then some (.listType, 1)
  else if word = Bytes.ofString "optional" then some (.optionalType, 1)
  else if word = Bytes.ofString "response" then some (.responseType, 2)
  else none

/-- The `>` that closes type arguments; a `>>` closes two lists of them. -/
def closeAngle : Parser Unit := do
  if ← peekIs .shiftRight then
    modify Cursor.splitShift
  discard (expect .greater)

def typeArguments (g : Grammar) : Parser (List Tree) :=
  separated (do advance; g.type) closeAngle

def tupleTypeItem (g : Grammar) : Parser Tree := do
  let name ← expect .ident
  discard (expect .colon)
  advance
  return .ofRule .tupleTypeItem name [.leaf name, ← g.type]

def tupleType (g : Grammar) : Parser Tree := do
  let start ← cur
  return .ofRule .tupleType start (← delimited [.comma, .semicolon] .rbrace (tupleTypeItem g))

def appliedType (g : Grammar) (start : Token) : Parser Tree := do
  match constructor? start.literal with
  | none => return .ofRule .namedType start [.leaf start]
  | some (rule, arity) =>
    if ← peekIs .less then
      advance
      let args ← typeArguments g
      if args.length = arity then
        return .ofRule rule start args
      else
        fail ⟨.expected (Bytes.ofNat arity ++ " type argument(s) for " ++ start.literal)
          (Bytes.ofNat args.length), start.pos⟩
    else return .ofRule .namedType start [.leaf start]

def typeRule (g : Grammar) : Parser Tree := do
  let start ← cur
  if start.kind = .lbrace then tupleType g
  else if start.kind = .ident then appliedType g start
  else fail ⟨.expectedType start.display, start.pos⟩

def annotation? (g : Grammar) : Parser (List Tree) := do
  if ← peekIs .colon then
    advance
    advance
    return [← g.type]
  else return []

end Grammar

end Covenant
