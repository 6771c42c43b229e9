import Covenant.Number.Binary64
import Covenant.Token

/-!
# Programs

The typed form of a contract: statements, expressions and types, each at its place in the source.
Calls are told apart by what they call, a minus sign is part of a number, and the branches of a
conditional form a chain.
-/

namespace Covenant

/-- A name at its place. -/
structure Ident where
  name : Bytes
  pos : Pos := {}
  deriving DecidableEq, Repr, Inhabited

/-- A type. -/
inductive Ty where
  /-- A type with a name of its own. -/
  | named (name : Ident)
  /-- A list. -/
  | list (pos : Pos) (element : Ty)
  /-- A tuple of named parts, in source order. -/
  | tuple (pos : Pos) (fields : List (Bytes × Ty))
  /-- A value that may be absent. -/
  | optional (pos : Pos) (inner : Ty)
  /-- A result or an error. -/
  | response (pos : Pos) (ok : Ty) (err : Ty)
  deriving Repr, Inhabited

/-- A name with a type; the parameter of a function value may have none. -/
structure Parameter where
  name : Ident
  type : Option Ty
  deriving Repr, Inhabited

/-- The value of a literal. -/
inductive Literal where
  | int (value : Int64)
  | float (value : Binary64)
  | string (value : Bytes)
  | bool (value : Bool)
  deriving DecidableEq, Inhabited

/-- The operators between two operands. -/
inductive BinOp where
  | assign
  | add | sub | mul | div | mod
  | lt | gt | le | ge | eq | ne
  | and | or
  | bitAnd | bitOr | bitXor | shiftLeft | shiftRight
  /-- A text that is no operator. -/
  | other (text : Bytes)
  deriving DecidableEq, Repr, Inhabited

def BinOp.text : BinOp → Bytes
  | assign => "="
  | add => "+" | sub => "-" | mul => "*" | div => "/" | mod => "%"
  | lt => "<" | gt => ">" | le => "<=" | ge => ">=" | eq => "==" | ne => "!="
  | and => "&&" | or => "||"
  | bitAnd => "&" | bitOr => "|" | bitXor => "^" | shiftLeft => "<<" | shiftRight => ">>"
  | other t => t

def BinOp.all : List BinOp :=
  [assign, add, sub, mul, div, mod, lt, gt, le, ge, eq, ne, and, or, bitAnd, bitOr, bitXor,
   shiftLeft, shiftRight]

def BinOp.ofText (t : Bytes) : BinOp :=
  (all.find? (·.text == t)).getD (other t)

/-- The operators before one operand. -/
inductive UnOp where
  | not | neg
  /-- A text that is no operator. -/
  | other (text : Bytes)
  deriving DecidableEq, Repr, Inhabited

def UnOp.text : UnOp → Bytes
  | not => "!"
  | neg => "-"
  | other t => t

def UnOp.ofText (t : Bytes) : UnOp :=
  if t = not.text then not else if t = neg.text then neg else other t

/-- A map from keys to values: the word that declares it, its name and its types. -/
structure MapShape where
  word : Bytes
  pos : Pos
  name : Ident
  key : Ty
  value : Ty

mutual

/-- An expression. -/
inductive Expr where
  | ident (name : Ident)
  /-- A literal, and the text of its first token. -/
  | literal (first : Bytes) (pos : Pos) (value : Literal)
  | principal (pos : Pos) (address : Bytes)
  /-- The absent value. -/
  | noneLit (pos : Pos)
  /-- A present value. -/
  | someOf (pos : Pos) (value : Expr)
  | list (pos : Pos) (elements : List Expr)
  /-- A tuple of named parts, in source order. -/
  | tuple (pos : Pos) (fields : List (Bytes × Expr))
  | binary (pos : Pos) (op : BinOp) (left right : Expr)
  | unary (pos : Pos) (op : UnOp) (operand : Expr)
  | conditional (pos : Pos) (condition yes no : Expr)
  | member (pos : Pos) (object : Expr) (property : Ident)
  | call (pos : Pos) (callee : Expr) (args : List Expr)
  /-- A call of a function of another contract. -/
  | contractCall (pos : Pos) (contract : Ident) (function : Bytes) (args : List Expr)
  /-- An operation on an asset. -/
  | assetCall (pos : Pos) (asset : Ident) (function : Bytes) (args : List Expr)
  | map (pos : Pos) (list function : Expr)
  | filter (pos : Pos) (list function : Expr)
  | fold (pos : Pos) (list initial function : Expr)
  | comprehension (pos : Pos) (element : Expr) (iterator : Ident) (iterable : Expr)
      (condition : Option Expr)
  | lambda (pos : Pos) (params : List Parameter) (body : Body)
  /-- Whether the value has the type. -/
  | typeCheck (pos : Pos) (value : Expr) (type : Ty)
  /-- The value taken as one of the type. -/
  | cast (pos : Pos) (value : Expr) (type : Ty)

/-- What a function value answers. -/
inductive Body where
  | expr (e : Expr)
  | block (b : Block)

/-- A sequence of statements in braces. -/
inductive Block where
  | mk (pos : Pos) (statements : List Stmt)

/-- A statement or declaration. -/
inductive Stmt where
  | fnDecl (f : Fn)
  | letDecl (pos : Pos) (name : Ident) (type : Option Ty) (value : Expr)
  | constDecl (pos : Pos) (name : Ident) (type : Option Ty) (value : Expr)
  /-- A constant that declares a map. -/
  | mapConst (pos : Pos) (decorators : List Decorator) (name : Ident) (type : Option Ty)
      (value : Option Expr) (shape : MapShape)
  | mapDecl (shape : MapShape)
  | assetDecl (pos : Pos) (name : Ident) (fields : List Parameter)
  | traitDecl (pos : Pos) (name : Ident) (functions : List Fn)
  | ifStmt (pos : Pos) (condition : Expr) (body : Block) (rest : Else)
  | tryStmt (pos : Pos) (body : Block) (name : Ident) (handler : Block)
  | throwStmt (pos : Pos) (value : Expr)
  | returnStmt (pos : Pos) (value : Option Expr)
  | exprStmt (pos : Pos) (e : Expr)
  | importDecl (pos : Pos) (names : List Ident) (source : Bytes)
  | exportDecl (pos : Pos) (declaration : Stmt)

/-- What follows the first branch of a conditional statement. -/
inductive Else where
  /-- Nothing. -/
  | absent
  /-- The branch for all other cases. -/
  | final (body : Block)
  /-- A further condition. -/
  | elseIf (condition : Expr) (body : Block) (rest : Else)

/-- A function, or without a body the signature of one. -/
inductive Fn where
  | mk (pos : Pos) (decorators : List Decorator) (name : Ident) (params : List Parameter)
      (result : Option Ty) (body : Option Block)

/-- An annotation of a declaration. -/
inductive Decorator where
  | mk (pos : Pos) (name : Bytes) (argument : Option Node)

/-- Any part of a program. -/
inductive Node where
  | expr (e : Expr)
  | type (t : Ty)
  | parameter (p : Parameter)
  | block (b : Block)
  | stmt (s : Stmt)
  | program (statements : List Stmt)

end

def Block.pos : Block → Pos
  | mk p _ => p

def Block.statements : Block → List Stmt
  | mk _ ss => ss

def Decorator.pos : Decorator → Pos
  | mk p _ _ => p

def Decorator.name : Decorator → Bytes
  | mk _ n _ => n

def Decorator.argument : Decorator → Option Node
  | mk _ _ a => a

def Fn.pos : Fn → Pos
  | mk p _ _ _ _ _ => p

def Fn.decorators : Fn → List Decorator
  | mk _ ds _ _ _ _ => ds

def Fn.name : Fn → Ident
  | mk _ _ n _ _ _ => n

def Fn.params : Fn → List Parameter
  | mk _ _ _ ps _ _ => ps

def Fn.result : Fn → Option Ty
  | mk _ _ _ _ r _ => r

def Fn.body : Fn → Option Block
  | mk _ _ _ _ _ b => b

def Fn.hasDecorator (f : Fn) (name : String) : Bool :=
  f.decorators.any (·.name == Bytes.ofString name)

/-- A whole contract. -/
structure Program where
  statements : List Stmt

end Covenant
