import Covenant.Tree.Grammar.Expression

/-!
# The grammar of statements and declarations

Every rule starts with the cursor on its first token and ends with the cursor on its last one.
-/

namespace Covenant.Grammar

open Covenant.Parser

/-! ### Declarations -/

/-- The type shape of a map, in braces, or any other argument of a decorator. -/
def decoratorArgument (g : Grammar) (isMap : Bool) : Parser Tree := do
  advance
  let shaped := isMap && (← peekIs .lbrace)
  advance
  let arg ← if shaped then tupleType g else g.expression
  discard (expect .rparen)
  return arg

def decorator (g : Grammar) : Parser Tree := do
  let t ← cur
  if ← peekIs .lparen then
    return .ofRule .decorator t [.leaf t, ← decoratorArgument g (t.literal = Bytes.ofString "@map")]
  else return .ofRule .decorator t [.leaf t]

def functionDecl (g : Grammar) (decorators : List Tree) : Parser Tree := do
  let start ← cur
  let name ← expect .ident
  discard (expect .lparen)
  let params ← parameters g true
  let result ← annotation? g
  discard (expect .lbrace)
  let body ← block g
  return .ofRule .functionDecl start (decorators ++ .leaf name :: params :: result ++ [body])

/-- The binding of a name, with the cursor on its keyword: type and value are optional. -/
def binding (g : Grammar) (rule : Rule) (decorators : List Tree) : Parser Tree := do
  let start ← cur
  let name ← expect .ident
  let type ← annotation? g
  let value ←
    if ← peekIs .assign then do
      advance
      advance
      pure [← g.expression]
    else pure []
  optionalSemicolon
  return .ofRule rule start (decorators ++ .leaf name :: type ++ value)

def assetField? (g : Grammar) : Parser (Option Tree) := do
  if ← peekIs .rbrace then return none
  else
    let name ← expect .ident
    let type ← annotation? g
    let next := (← peek).kind
    if next = .semicolon ∨ next = .comma then advance
    return some (.ofRule .assetField name (.leaf name :: type))

def assetDecl (g : Grammar) (decorators : List Tree) : Parser Tree := do
  let start ← cur
  let name ← expect .ident
  discard (expect .lbrace)
  let fields ← many (assetField? g)
  advance
  return .ofRule .assetDecl start (decorators ++ .leaf name :: fields)

def signature? (g : Grammar) : Parser (Option Tree) := do
  if ← peekIs .rbrace then return none
  else
    let name ← expect .ident
    discard (expect .lparen)
    let params ← parameters g true
    discard (expect .colon)
    advance
    let result ← g.type
    optionalSemicolon
    return some (.ofRule .signature name [.leaf name, params, result])

def traitDecl (g : Grammar) : Parser Tree := do
  let start ← cur
  let name ← expect .ident
  discard (expect .lbrace)
  let signatures ← many (signature? g)
  advance
  return .ofRule .traitDecl start (.leaf name :: signatures)

def mapName? : Parser (Option Token) := do
  if ← peekIs .ident then
    advance
    let name ← cur
    discard (expect .colon)
    let word ← expect .ident
    if word.literal.equalFold "map" then return some name
    else fail ⟨.expected "Map<K, V>" word.literal, word.pos⟩
  else return none

/-- A map, `map<K, V> name` or `map name: Map<K, V>`, with the cursor on its first word. -/
def mapDecl (g : Grammar) : Parser Tree := do
  let start ← cur
  let early ← mapName?
  discard (expect .less)
  let types ← typeArguments g
  if types.length ≠ 2 then
    fail ⟨.expected "key and value types" (Bytes.ofNat types.length ++ " type arguments"),
      (← cur).pos⟩
  let name ← match early with
    | some name => pure name
    | none => expect .ident
  optionalSemicolon
  return .ofRule .mapDecl start (types ++ [.leaf name])

def importDecl : Parser Tree := do
  let start ← cur
  discard (expect .lbrace)
  let names ← separated (expect .ident) (discard (expect .rbrace))
  let word ← peek
  if word.kind = .ident ∧ word.literal = Bytes.ofString "from" then
    advance
    let source ← expect .string
    optionalSemicolon
    return .ofRule .importDecl start (names.map .leaf ++ [.leaf source])
  else fail ⟨.expected "'from'" word.display, word.pos⟩

/-! ### Statements -/

def guarded (g : Grammar) : Parser (List Tree) := do
  discard (expect .lparen)
  advance
  let condition ← g.expression
  discard (expect .rparen)
  discard (expect .lbrace)
  return [condition, ← block g]

def branchesWithin (g : Grammar) : (fuel : Nat) → Parser (List Tree)
  | 0 => failUnexpected
  | fuel + 1 => do
    if ← peekIs .kwElse then
      advance
      if ← peekIs .kwIf then
        advance
        let branch ← guarded g
        return branch ++ (← branchesWithin g fuel)
      else
        discard (expect .lbrace)
        return [← block g]
    else return []

def ifStmt (g : Grammar) : Parser Tree := do
  let start ← cur
  let first ← guarded g
  return .ofRule .ifStmt start (first ++ (← branchesWithin g (← get).bound))

def tryStmt (g : Grammar) : Parser Tree := do
  let start ← cur
  discard (expect .lbrace)
  let body ← block g
  discard (expect .kwCatch)
  discard (expect .lparen)
  let name ← expect .ident
  discard (expect .rparen)
  discard (expect .lbrace)
  return .ofRule .tryStmt start [body, .leaf name, ← block g]

def throwStmt (g : Grammar) : Parser Tree := do
  let start ← cur
  advance
  let e ← g.expression
  optionalSemicolon
  return .ofRule .throwStmt start [e]

def returnStmt (g : Grammar) : Parser Tree := do
  let start ← cur
  match (← peek).kind with
  | .semicolon =>
    advance
    return .ofRule .returnStmt start []
  | .rbrace | .eof => return .ofRule .returnStmt start []
  | _ =>
    advance
    let e ← g.expression
    optionalSemicolon
    return .ofRule .returnStmt start [e]

def exportDecl (g : Grammar) : Parser Tree := do
  let start ← cur
  advance
  return .ofRule .exportDecl start [← g.statement]

def exprStmt (g : Grammar) : Parser Tree := do
  let start ← cur
  let e ← expressionRule g
  optionalSemicolon
  return .ofRule .exprStmt start [e]

def decorator? (g : Grammar) : Parser (Option Tree) := do
  if ← curIs .decorator then
    let d ← decorator g
    advance
    return some d
  else return none

def decorated (g : Grammar) : Parser Tree := do
  let decorators ← many (decorator? g)
  let t ← cur
  match t.kind with
  | .kwFunction => functionDecl g decorators
  | .kwConst => binding g .constantDecl decorators
  | .kwClass => assetDecl g decorators
  | _ => fail ⟨.expected "function, const or class after decorator" t.display, t.pos⟩

def statementRule (g : Grammar) : Parser Tree := do
  let t ← cur
  match t.kind with
  | .decorator => decorated g
  | .kwFunction => functionDecl g []
  | .kwLet => binding g .variableDecl []
  | .kwConst => binding g .constantDecl []
  | .kwClass => assetDecl g []
  | .kwTrait => traitDecl g
  | .kwIf => ifStmt g
  | .kwTry => tryStmt g
  | .kwThrow => throwStmt g
  | .kwReturn => returnStmt g
  | .kwImport => importDecl
  | .kwExport => exportDecl g
  | _ =>
    let next := (← peek).kind
    if t.kind = .ident ∧ t.literal = Bytes.ofString "map" ∧ (next = .less ∨ next = .ident) then
      mapDecl g
    else exprStmt g

end Covenant.Grammar
