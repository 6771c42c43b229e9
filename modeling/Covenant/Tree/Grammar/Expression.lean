import Covenant.Tree.Grammar.Type

/-!
# The grammar of expressions

From the loosest to the tightest: assignment, which groups to the right, the conditional, ten
levels of binary operators, signs, and suffixes.
-/

namespace Covenant.Grammar

open Covenant.Parser

/-! ### Blocks and parameters -/

/-- The next statement of a block, unless its closing brace comes first. -/
def blockItem? (g : Grammar) : Parser (Option Tree) := do
  let t ← cur
  if t.kind = .rbrace then return none
  else if t.kind = .eof then fail ⟨.openBlock, t.pos⟩
  else
    let stmt ← g.statement
    match (← get).fault with
    | some f => fail f
    | none =>
      advance
      return some stmt

def block (g : Grammar) : Parser Tree := do
  let start ← cur
  advance
  return .ofRule .block start (← many (blockItem? g))

def parameter (g : Grammar) (typed : Bool) : Parser Tree := do
  let name ← expect .ident
  if typed && !(← peekIs .colon) then failExpecting .colon
  else return .ofRule .parameter name (.leaf name :: (← annotation? g))

def parameters (g : Grammar) (typed : Bool) : Parser Tree := do
  let start ← cur
  return .ofRule .parameters start (← delimited [.comma] .rparen (parameter g typed))

def arguments (g : Grammar) : Parser (List Tree) :=
  delimited [.comma] .rparen (do advance; g.expression)

/-! ### Primary expressions -/

def lambdaBody (g : Grammar) (start : Token) (params : Tree) : Parser Tree := do
  advance
  if ← curIs .lbrace then return .ofRule .lambda start [params, ← block g]
  else return .ofRule .lambda start [params, ← g.expression]

/-- A function value of one bare parameter, on which the cursor stands. -/
def bareLambda (g : Grammar) : Parser Tree := do
  let name ← cur
  let params := Tree.ofRule .parameters name [.ofRule .parameter name [.leaf name]]
  advance
  lambdaBody g name params

def lambda (g : Grammar) : Parser Tree := do
  let start ← cur
  let params ← parameters g false
  discard (expect .arrow)
  lambdaBody g start params

def comprehension (g : Grammar) (start : Token) (first : Tree) : Parser Tree := do
  advance
  let iterator ← expect .ident
  discard (expect .kwIn)
  advance
  let iterable ← g.expression
  let condition ←
    if ← peekIs .kwIf then do
      advance
      advance
      pure [← g.expression]
    else pure []
  discard (expect .rbracket)
  return .ofRule .comprehension start ([first, .leaf iterator, iterable] ++ condition)

def bracketed (g : Grammar) : Parser Tree := do
  let start ← cur
  if ← peekIs .rbracket then
    advance
    return .ofRule .listLit start []
  advance
  let first ← g.expression
  if ← peekIs .kwFor then comprehension g start first
  else
    return .ofRule .listLit start
      (first :: (← tail [.comma] .rbracket (do advance; g.expression)))

def tupleItem (g : Grammar) : Parser Tree := do
  advance
  let key ← cur
  if key.kind = .ident ∨ key.kind = .string then
    discard (expect .colon)
    advance
    return .ofRule .tupleItem key [.leaf key, ← g.expression]
  else fail ⟨.expected "field name" key.display, key.pos⟩

def tuple (g : Grammar) : Parser Tree := do
  let start ← cur
  return .ofRule .tupleLit start (← delimited [.comma] .rbrace (tupleItem g))

def creation (g : Grammar) : Parser Tree := do
  let start ← cur
  let name ← expect .ident
  let types ←
    if ← peekIs .less then do
      advance
      typeArguments g
    else pure []
  let paren ← expect .lparen
  let args ← arguments g
  return .ofRule .newExpr start (.leaf name :: types ++ [.ofRule .arguments paren args])

def parenthesized (g : Grammar) : Parser Tree := do
  advance
  let e ← g.expression
  discard (expect .rparen)
  return e

def primary (g : Grammar) : Parser Tree := do
  let t ← cur
  match t.kind with
  | .ident => if ← peekIs .arrow then bareLambda g else return .leaf t
  | .int | .float | .string | .kwTrue | .kwFalse | .kwNone | .principal =>
    return .ofRule .literal t [.leaf t]
  | .lparen => if (← get).lambdaAhead then lambda g else parenthesized g
  | .lbracket => bracketed g
  | .lbrace => tuple g
  | .kwNew => creation g
  | .illegal => fail t.illegalFault
  | _ => failUnexpected

/-! ### Operators -/

def suffix? (g : Grammar) : Parser (Option Tree) := do
  match (← peek).kind with
  | .lparen =>
    advance
    let start ← cur
    return some (.ofRule .call start (← arguments g))
  | .dot =>
    advance
    let name ← expect .ident
    return some (.ofRule .member name [.leaf name])
  | .kwIs =>
    advance
    let start ← cur
    advance
    return some (.ofRule .isSuffix start [← g.type])
  | .kwAs =>
    advance
    let start ← cur
    advance
    return some (.ofRule .asSuffix start [← g.type])
  | _ => return none

def suffixed (g : Grammar) : Parser Tree := do
  let e ← primary g
  match ← many (suffix? g) with
  | [] => return e
  | suffixes => return .node .suffixed e.pos (e :: suffixes)

/-- An operand of a binary operator: signs and negations before a suffixed expression. -/
def unaryRule (g : Grammar) : Parser Tree := do
  let t ← cur
  if t.kind = .bang ∨ t.kind = .minus then
    advance
    return .ofRule .unary t [.leaf t, ← g.unary]
  else suffixed g

/-- An operator of the level and its right operand, when one follows. -/
def operation? (level : Level) (operand : Parser Tree) : Parser (Option (Tree × Tree)) := do
  if level.operators.contains (← peek).kind then
    advance
    let op ← cur
    advance
    return some (.leaf op, ← operand)
  else return none

/-- Operands of the given levels; the operators of one level stand in one node. -/
def binary (g : Grammar) : List Level → Parser Tree
  | [] => unaryRule g
  | level :: tighter => do
    let first ← binary g tighter
    match ← many (operation? level (binary g tighter)) with
    | [] => return first
    | more =>
      return .node (.binary level) first.pos (first :: more.flatMap fun (op, e) => [op, e])

def conditionalRule (g : Grammar) : Parser Tree := do
  let condition ← binary g Level.all
  if ← peekIs .question then
    advance
    let mark ← cur
    advance
    let yes ← g.expression
    discard (expect .colon)
    advance
    return .ofRule .conditional mark [condition, yes, ← g.conditional]
  else return condition

def expressionRule (g : Grammar) : Parser Tree := do
  let left ← conditionalRule g
  if ← peekIs .assign then
    advance
    let mark ← cur
    advance
    return .ofRule .assignment mark [left, ← g.expression]
  else return left

end Covenant.Grammar
