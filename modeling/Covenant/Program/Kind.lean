import Covenant.Program.Basic

/-!
# Kinds and first words

Every part of a program has a kind, by which messages and traces call it, a first word and a
place.
-/

namespace Covenant

def Ty.kind : Ty → String
  | named _ => "NamedType"
  | list .. => "ListType"
  | tuple .. => "TupleType"
  | optional .. => "OptionalType"
  | response .. => "ResponseType"

def Ty.word : Ty → Bytes
  | named n => n.name
  | list .. => "list"
  | tuple .. => "\x7b"
  | optional .. => "optional"
  | response .. => "response"

def Ty.pos : Ty → Pos
  | named n => n.pos
  | list p _ | tuple p _ | optional p _ | response p _ _ => p

def Expr.kind : Expr → String
  | ident _ => "Identifier"
  | literal .. => "Literal"
  | principal .. => "PrincipalLiteral"
  | noneLit _ | someOf .. => "OptionalLiteral"
  | list .. => "ListLiteral"
  | tuple .. => "TupleLiteral"
  | binary .. => "BinaryExpression"
  | unary .. => "UnaryExpression"
  | conditional .. => "TernaryExpression"
  | member .. => "MemberExpression"
  | call .. => "CallExpression"
  | contractCall .. => "ContractCallExpression"
  | assetCall .. => "AssetCallExpression"
  | map .. => "MapExpression"
  | filter .. => "FilterExpression"
  | fold .. => "FoldExpression"
  | comprehension .. => "ListComprehension"
  | lambda .. => "LambdaExpression"
  | typeCheck .. => "TypeCheck"
  | cast .. => "TypeAssertion"

def Expr.word : Expr → Bytes
  | ident n => n.name
  | literal first _ _ => first
  | principal _ address => address
  | noneLit _ => "none"
  | someOf .. => "some"
  | list .. | comprehension .. => "["
  | tuple .. => "\x7b"
  | binary _ op _ _ => op.text
  | unary _ op _ => op.text
  | conditional .. => "?"
  | member .. | contractCall .. | assetCall .. => "."
  | call .. => "("
  | map .. => "map"
  | filter .. => "filter"
  | fold .. => "fold"
  | lambda .. => "=>"
  | typeCheck .. => "is"
  | cast .. => "as"

def Expr.pos : Expr → Pos
  | ident n => n.pos
  | literal _ p _ | principal p _ | noneLit p | someOf p _ | list p _ | tuple p _
  | binary p _ _ _ | unary p _ _ | conditional p _ _ _ | member p _ _ | call p _ _
  | contractCall p _ _ _ | assetCall p _ _ _ | map p _ _ | filter p _ _ | fold p _ _ _
  | comprehension p _ _ _ _ | lambda p _ _ | typeCheck p _ _ | cast p _ _ => p

def Fn.word (f : Fn) : Bytes :=
  if f.body.isSome then "function" else f.name.name

def Stmt.kind : Stmt → String
  | fnDecl _ => "FunctionDeclaration"
  | letDecl .. => "VariableDeclaration"
  | constDecl .. | mapConst .. => "ConstantDeclaration"
  | mapDecl _ => "MapDeclaration"
  | assetDecl .. => "AssetDeclaration"
  | traitDecl .. => "TraitDeclaration"
  | ifStmt .. => "IfStatement"
  | tryStmt .. => "TryCatchStatement"
  | throwStmt .. => "ThrowStatement"
  | returnStmt .. => "ReturnStatement"
  | exprStmt .. => "ExpressionStatement"
  | importDecl .. => "ImportDeclaration"
  | exportDecl .. => "ExportDeclaration"

def Stmt.word : Stmt → Bytes
  | fnDecl f => f.word
  | letDecl .. => "let"
  | constDecl .. | mapConst .. => "const"
  | mapDecl m => m.word
  | assetDecl .. => "class"
  | traitDecl .. => "trait"
  | ifStmt .. => "if"
  | tryStmt .. => "try"
  | throwStmt .. => "throw"
  | returnStmt .. => "return"
  | exprStmt _ e => e.word
  | importDecl .. => "import"
  | exportDecl .. => "export"

def Stmt.pos : Stmt → Pos
  | fnDecl f => f.pos
  | mapDecl m => m.pos
  | letDecl p _ _ _ | constDecl p _ _ _ | mapConst p _ _ _ _ _ | assetDecl p _ _
  | traitDecl p _ _ | ifStmt p _ _ _ | tryStmt p _ _ _ | throwStmt p _ | returnStmt p _
  | exprStmt p _ | importDecl p _ _ | exportDecl p _ => p

def Node.kind : Node → String
  | expr e => e.kind
  | type t => t.kind
  | parameter _ => "Parameter"
  | block _ => "Block"
  | stmt s => s.kind
  | program _ => "Program"

def Program.word (p : Program) : Bytes :=
  match p.statements with
  | [] => []
  | s :: _ => s.word

end Covenant
