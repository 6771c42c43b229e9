import Covenant.Clarity.Render
import Covenant.Proofs.Clarity.Reading

/-!
# What programs say in Clarity

The translation of types, expressions and statements into trees of code: which words and lists stand
for each of them, and nothing of lines and blanks.  Parts that have no translation become the empty
list.
-/

namespace Covenant

namespace SExpr

def word (w : String) : SExpr :=
  atom w

def app (function : String) (args : List SExpr) : SExpr :=
  list (word function :: args)

def pair (name : Bytes) (t : SExpr) : SExpr :=
  list [atom name, t]

def unit : SExpr :=
  list []

def sequence : List SExpr → SExpr
  | [] => unit
  | [t] => t
  | ts => app "begin" ts

def binding (name : Bytes) (value body : SExpr) : SExpr :=
  app "let" [list [pair name value], body]

def lambda (params : List Bytes) (body : SExpr) : SExpr :=
  app "lambda" [list (params.map atom), body]

end SExpr

open SExpr (atom list word app pair)

/-! ### Types -/

namespace Ty

mutual

def code : Ty → SExpr
  | named n => if n.name = Bytes.ofString "any" then app "optional" [.word "any"] else atom n.name
  | list _ t => app "list" [t.code]
  | tuple _ fields => app "tuple" (fieldCodes fields)
  | optional _ t => app "optional" [t.code]
  | response _ ok err => app "response" [ok.code, err.code]

def fieldCodes : List (Bytes × Ty) → List SExpr
  | [] => []
  | (key, t) :: fields => pair key t.code :: fieldCodes fields

end

def code? : Option Ty → SExpr
  | some t => t.code
  | none => .unit

/-- The test for a type.  A type of several words follows the `is-` as an item of its own. -/
def testCode (t : Ty) (value : SExpr) : SExpr :=
  match t with
  | named n => .list [atom ("is-" ++ n.name), value]
  | _ => .list [.word "is-", t.code, value]

/-- A value taken as one of a type; between integers there are functions for that. -/
def castCode (t : Ty) (known : Option Ty) (value : SExpr) : SExpr :=
  if t.isNamed "int" && known.any (isNamed "uint") then app "to-int" [value]
  else if t.isNamed "uint" && known.any (isNamed "int") then app "to-uint" [value]
  else app "as" [t.code, value]

end Ty

def Parameter.code (p : Parameter) : SExpr :=
  pair p.name.name (Ty.code? p.type)

def MapShape.code (m : MapShape) : SExpr :=
  app "define-map" [atom m.name.name, m.key.code, m.value.code]

def Fn.signatureCode (f : Fn) : SExpr :=
  list [atom f.name.name, list (f.params.map fun p => Ty.code? p.type), Ty.code? f.result]

/-! ### Operators and literals -/

def BinOp.word : BinOp → Bytes
  | assign => "var-set"
  | add => "+" | sub => "-" | mul => "*" | div => "/" | mod => "mod"
  | lt => "<" | gt => ">" | le => "<=" | ge => ">=" | eq => "is-eq" | ne => "is-eq"
  | and => "and" | or => "or"
  | bitAnd => "bit-and" | bitOr => "bit-or" | bitXor => "bit-xor"
  | shiftLeft => "bit-shift-left" | shiftRight => "bit-shift-right"
  | other text => text

def BinOp.code (op : BinOp) (left right : SExpr) : SExpr :=
  match op with
  | ne => app "not" [list [atom ne.word, left, right]]
  | op => list [atom op.word, left, right]

/-- The operator may be applied to one operand alone, in place of a function value. -/
def BinOp.hasSection : BinOp → Bool
  | add | sub | mul | div | mod | lt | gt | le | ge | eq | and | or => true
  | _ => false

def UnOp.code (op : UnOp) (operand : SExpr) : SExpr :=
  match op with
  | .not => app "not" [operand]
  | .neg => app "-" [operand]
  | .other text => list [atom text, operand]

def Literal.code : Literal → SExpr
  | int v => atom (Bytes.ofInt v.toInt)
  | float v => atom (floatText v)
  | string s => .string s
  | bool b => word (if b then "true" else "false")

/-- An operand that is a literal or a name other than the iterator. -/
def Expr.operandCode? (iterator : Bytes) : Expr → Option SExpr
  | .literal _ _ v => some v.code
  | .principal _ address => some (atom ("'" ++ address))
  | .ident n => if n.name = iterator then none else some (atom n.name)
  | _ => none

/-- An operator between the iterator and such an operand, applied to the latter alone. -/
def Expr.sectionCode? (iterator : Bytes) : Expr → Option SExpr
  | .binary _ op l r =>
    if op.hasSection then
      if isIterator iterator l && (r.operandCode? iterator).isSome then
        (r.operandCode? iterator).map fun k => .list [atom op.word, k]
      else if isIterator iterator r then
        (l.operandCode? iterator).map fun k => .list [atom op.word, k]
      else none
    else none
  | _ => none

/-! ### Expressions and statements -/

mutual

def Expr.code (sc : Scope) : Expr → SExpr
  | .ident n => atom n.name
  | .literal _ _ v => v.code
  | .principal _ address => atom ("'" ++ address)
  | .noneLit _ => word "none"
  | .someOf _ e => app "some" [Expr.code sc e]
  | .list _ es => app "list" (Expr.codes sc es)
  | .tuple _ fields => app "tuple" (Expr.fieldCodes sc fields)
  | .binary _ op l r => op.code (Expr.code sc l) (Expr.code sc r)
  | .unary _ op e => op.code (Expr.code sc e)
  | .conditional _ c t e => app "if" [Expr.code sc c, Expr.code sc t, Expr.code sc e]
  | .member _ e property =>
    match chainValue? e property with
    | some c => word c.word
    | none => app "get" [atom property.name, Expr.code sc e]
  | .call _ (.member _ object property) args =>
    list (atom (hyphenated property.name) :: Expr.code sc object :: Expr.codes sc args)
  | .call _ f args => list (Expr.code sc f :: Expr.codes sc args)
  | .contractCall _ contract function args =>
    app "contract-call?" (atom ("." ++ contract.name) :: atom function :: Expr.codes sc args)
  | .assetCall _ asset function args =>
    list (atom ("nft-" ++ hyphenated function ++ "?") :: atom asset.name ::
      assetArgs function (Expr.codes sc args))
  | .map _ l f => app "map" [Expr.code sc f, Expr.code sc l]
  | .filter _ l f => app "filter" [Expr.code sc f, Expr.code sc l]
  | .fold _ l i f => app "fold" [Expr.code sc l, Expr.code sc i, Expr.code sc f]
  | .comprehension _ e x l none =>
    app "map" [.lambda [x.name] (Expr.code (sc.bind x (elementType (l.knownType sc))) e),
      Expr.code sc l]
  | .comprehension _ e x l (some c) =>
    app "map"
      [(e.sectionCode? x.name).getD
        (.lambda [x.name] (Expr.code (sc.bind x (elementType (l.knownType sc))) e)),
        app "filter"
          [.lambda [x.name] (Expr.code (sc.bind x (elementType (l.knownType sc))) c),
            Expr.code sc l]]
  | .lambda _ ps body => .lambda (ps.map (·.name.name)) (Body.code (sc.bindAll ps) body)
  | .typeCheck _ e t => t.testCode (Expr.code sc e)
  | .cast _ e t => t.castCode (e.knownType sc) (Expr.code sc e)

def Expr.codes (sc : Scope) : List Expr → List SExpr
  | [] => []
  | e :: es => Expr.code sc e :: Expr.codes sc es

def Expr.fieldCodes (sc : Scope) : List (Bytes × Expr) → List SExpr
  | [] => []
  | (key, e) :: fields => pair key (Expr.code sc e) :: Expr.fieldCodes sc fields

def Body.code (sc : Scope) : Body → SExpr
  | .expr e => Expr.code sc e
  | .block b => Block.code sc b

def Block.code (sc : Scope) : Block → SExpr
  | .mk _ ss => .sequence (Stmt.codes sc ss)

def Stmt.codes (sc : Scope) : List Stmt → List SExpr
  | [] => []
  | .letDecl _ n t e :: rest =>
    [.binding n.name (Expr.code sc e)
      (match rest with
        | [] => atom n.name
        | _ :: _ => .sequence (Stmt.codes (sc.bind n (t.or (e.knownType sc))) rest))]
  | .constDecl _ n t e :: rest =>
    [.binding n.name (Expr.code sc e)
      (match rest with
        | [] => atom n.name
        | _ :: _ => .sequence (Stmt.codes (sc.bind n (t.or (e.knownType sc))) rest))]
  | .ifStmt _ c b more :: rest =>
    if more.isOpen then
      [app "if" [Expr.code sc c, Block.code sc b,
        Else.code sc (.sequence (Stmt.codes sc rest)) more]]
    else
      app "if" [Expr.code sc c, Block.code sc b, Else.code sc .unit more] :: Stmt.codes sc rest
  | s :: rest => Stmt.code sc s :: Stmt.codes sc rest

/-- Further branches; `fallen` follows when none covers the case. -/
def Else.code (sc : Scope) (fallen : SExpr) : Else → SExpr
  | .absent => fallen
  | .final b => Block.code sc b
  | .elseIf c b rest => app "if" [Expr.code sc c, Block.code sc b, Else.code sc fallen rest]

def Stmt.code (sc : Scope) : Stmt → SExpr
  | .fnDecl f => Fn.code false f
  | .letDecl _ n _ e => .binding n.name (Expr.code sc e) (atom n.name)
  | .constDecl _ n _ e => .binding n.name (Expr.code sc e) (atom n.name)
  | .mapConst _ _ _ _ _ m => m.code
  | .mapDecl m => m.code
  | .assetDecl _ n fields =>
    app "define-non-fungible-token" (atom n.name :: fields.map Parameter.code)
  | .traitDecl _ n fs => app "define-trait" [atom n.name, list (fs.map Fn.signatureCode)]
  | .ifStmt _ c b rest => app "if" [Expr.code sc c, Block.code sc b, Else.code sc .unit rest]
  | .tryStmt _ b n h =>
    app "try" [Block.code sc b, app "catch" [atom n.name, Block.code (sc.bind n none) h]]
  | .throwStmt _ e => app "error" [Expr.code sc e]
  | .returnStmt _ none => .unit
  | .returnStmt _ (some e) => Expr.code sc e
  | .exprStmt _ e => Expr.code sc e
  | .importDecl _ names source =>
    app "use-trait" (names.map (fun n => atom n.name) ++ [atom ("." ++ contractOf source)])
  | .exportDecl _ s => Stmt.code sc s

def Fn.code (exported : Bool) : Fn → SExpr
  | .mk _ _ _ _ _ none => .unit
  | f@(.mk _ _ n ps _ (some b)) =>
    list [atom ("define-" ++ visibility f exported), list (atom n.name :: ps.map Parameter.code),
      Block.code (Scope.bindAll [] ps) b]

end

def Stmt.topCode (exported : Bool) : Stmt → SExpr
  | .exportDecl _ s => Stmt.topCode true s
  | .fnDecl f => f.code exported
  | .letDecl _ n t e =>
    app "define-data-var" [atom n.name, Ty.code? (t.or (e.knownType [])), e.code []]
  | .constDecl _ n _ e => app "define-constant" [atom n.name, e.code []]
  | s => s.code []

end Covenant
