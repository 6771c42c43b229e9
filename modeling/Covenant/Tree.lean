import Covenant.Token

/-!
# Parse trees

A tree is a token or the application of a grammar rule to subtrees.  Rules that only pass on one
subtree leave no node, so the precedence of operators shows in the nesting alone.
-/

namespace Covenant

/-- The levels of binary operators, from the loosest to the tightest. -/
inductive Level where
  | logicalOr | logicalAnd | bitOr | bitXor | bitAnd
  | equality | relational | shift | additive | multiplicative
  deriving DecidableEq, Repr, Inhabited

def Level.all : List Level :=
  [logicalOr, logicalAnd, bitOr, bitXor, bitAnd, equality, relational, shift, additive,
   multiplicative]

def Level.operators : Level → List TokenKind
  | logicalOr => [.or]
  | logicalAnd => [.and]
  | bitOr => [.bitOr]
  | bitXor => [.bitXor]
  | bitAnd => [.bitAnd]
  | equality => [.equal, .notEqual]
  | relational => [.less, .greater, .lessEq, .greaterEq]
  | shift => [.shiftLeft, .shiftRight]
  | additive => [.plus, .minus]
  | multiplicative => [.asterisk, .slash, .percent]

def Level.name : Level → String
  | logicalOr => "logical_or_expression"
  | logicalAnd => "logical_and_expression"
  | bitOr => "bitwise_or_expression"
  | bitXor => "bitwise_xor_expression"
  | bitAnd => "bitwise_and_expression"
  | equality => "equality_expression"
  | relational => "relational_expression"
  | shift => "shift_expression"
  | additive => "additive_expression"
  | multiplicative => "multiplicative_expression"

/-- The rules of the grammar. -/
inductive Rule where
  | program | functionDecl | decorator | variableDecl | constantDecl | mapDecl | assetDecl
  | assetField | traitDecl | signature | exprStmt | ifStmt | tryStmt | throwStmt | returnStmt
  | importDecl | exportDecl | block | parameters | parameter | arguments
  | assignment | conditional | binary (level : Level) | unary | suffixed
  | call | member | isSuffix | asSuffix
  | listLit | tupleLit | tupleItem | comprehension | lambda | newExpr | literal
  | namedType | listType | tupleType | tupleTypeItem | optionalType | responseType
  /-- A name outside the grammar. -/
  | other (name : Bytes)
  deriving DecidableEq, Repr, Inhabited

def Rule.name : Rule → Bytes
  | program => "program"
  | functionDecl => "function_declaration"
  | decorator => "decorator"
  | variableDecl => "variable_declaration"
  | constantDecl => "constant_declaration"
  | mapDecl => "map_declaration"
  | assetDecl => "asset_declaration"
  | assetField => "asset_field"
  | traitDecl => "trait_declaration"
  | signature => "function_signature"
  | exprStmt => "expression_statement"
  | ifStmt => "if_statement"
  | tryStmt => "try_catch_statement"
  | throwStmt => "throw_statement"
  | returnStmt => "return_statement"
  | importDecl => "import_declaration"
  | exportDecl => "export_declaration"
  | block => "block"
  | parameters => "parameters"
  | parameter => "parameter"
  | arguments => "arguments"
  | assignment => "assignment_expression"
  | conditional => "conditional_expression"
  | binary level => level.name
  | unary => "unary_expression"
  | suffixed => "postfix_expression"
  | call => "call_expression"
  | member => "member_expression"
  | isSuffix => "is_expression"
  | asSuffix => "as_expression"
  | listLit => "array_or_list_literal"
  | tupleLit => "object_or_tuple_literal"
  | tupleItem => "object_or_tuple_item"
  | comprehension => "list_comprehension"
  | lambda => "lambda_expression"
  | newExpr => "new_expression"
  | literal => "literal"
  | namedType => "type"
  | listType => "list_type"
  | tupleType => "tuple_type"
  | tupleTypeItem => "tuple_type_item"
  | optionalType => "optional_type"
  | responseType => "response_type"
  | other n => n

def Rule.all : List Rule :=
  [program, functionDecl, decorator, variableDecl, constantDecl, mapDecl, assetDecl, assetField,
   traitDecl, signature, exprStmt, ifStmt, tryStmt, throwStmt, returnStmt, importDecl, exportDecl,
   block, parameters, parameter, arguments, assignment, conditional] ++ Level.all.map binary ++
  [unary, suffixed, call, member, isSuffix, asSuffix, listLit, tupleLit, tupleItem, comprehension,
   lambda, newExpr, literal, namedType, listType, tupleType, tupleTypeItem, optionalType,
   responseType]

def Rule.ofName (n : Bytes) : Rule :=
  (all.find? (·.name == n)).getD (other n)

/-- A parse tree. -/
inductive Tree where
  /-- A token. -/
  | leaf (t : Token)
  /-- A rule applied to subtrees, and the place where it starts. -/
  | node (rule : Rule) (pos : Pos) (kids : List Tree)
  deriving Repr, Inhabited

namespace Tree

def ofRule (rule : Rule) (first : Token) (kids : List Tree) : Tree :=
  .node rule first.pos kids

def pos : Tree → Pos
  | leaf t => t.pos
  | node _ p _ => p

def leafText (t : Token) : Bytes :=
  match t.kind with
  | .string => "\"" ++ t.literal ++ "\""
  | .principal => "'" ++ t.literal
  | _ => t.literal

mutual

def print : Tree → Bytes
  | leaf t => leafText t
  | node rule _ kids => "(" ++ rule.name ++ printKids kids ++ ")"

def printKids : List Tree → Bytes
  | [] => []
  | t :: ts => " " ++ t.print ++ printKids ts

end

end Tree

end Covenant
