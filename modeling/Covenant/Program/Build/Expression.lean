import Covenant.Program.Build.Type
import Covenant.Text.Class
import Covenant.Text.Glyph

/-!
# Building expressions

Operators of one level are grouped to the left, suffixes are applied from the left, and a call is
told apart by what it calls: an operation on an asset, a function of another contract, one of the
built-in list functions, or anything else.
-/

namespace Covenant

/-! ### What a call calls -/

/-- A name in capitals, digits and underscores, of at least two bytes and with a capital. -/
def isCapitals (name : Bytes) : Bool :=
  let gs := name.glyphs
  2 ≤ name.length &&
    gs.all (fun g => Rune.isUpper g.rune || Rune.isDigit g.rune || g.is '_') &&
    gs.any fun g => Rune.isUpper g.rune

def namesContract (name : Bytes) : Bool :=
  match name.glyphs with
  | [] => false
  | g :: _ => Rune.isUpper g.rune

def tokenOperations : List Bytes :=
  ["mint", "transfer", "burn", "getOwner"]

/-- Whether calling `function` on `name` is an operation on an asset. -/
def isAssetOperation (assets : List Bytes) (name function : Bytes) : Bool :=
  assets.contains name || (isCapitals name && tokenOperations.contains function)

/-- A call of `name` that is built in, when the number of arguments fits. -/
def builtinCall? (name : Ident) : List Expr → Option Expr
  | [a] => if name.name = Bytes.ofString "some" then some (.someOf name.pos a) else none
  | [a, b] =>
    if name.name = Bytes.ofString "map" then some (.map name.pos a b)
    else if name.name = Bytes.ofString "filter" then some (.filter name.pos a b)
    else none
  | [a, b, c] => if name.name = Bytes.ofString "fold" then some (.fold name.pos a b c) else none
  | _ => none

def callOf (assets : List Bytes) (callee : Expr) (pos : Pos) (args : List Expr) : Expr :=
  match callee with
  | .member p (.ident object) property =>
    if isAssetOperation assets object.name property.name then .assetCall p object property.name args
    else if namesContract object.name then .contractCall p object property.name args
    else .call pos callee args
  | .ident name => (builtinCall? name args).getD (.call pos callee args)
  | _ => .call pos callee args

namespace Site

variable (s : Site)

/-! ### Operators -/

def assignment : List Item → Except Fault Item
  | left :: right :: _ => return .ofExpr (.binary s.pos .assign (← s.expr left) (← s.expr right))
  | _ => s.missing "assignment" "value"

def conditional : List Item → Except Fault Item
  | c :: t :: e :: _ =>
    return .ofExpr (.conditional s.pos (← s.expr c) (← s.expr t) (← s.expr e))
  | _ => s.missing "conditional expression" "alternative"

/-- Operators and operands to the right of an operand, grouped to the left. -/
def operations (left : Expr) : List Item → Except Fault Expr
  | op :: right :: items => do
    let op ← s.token op
    let right ← s.expr right
    operations (.binary op.pos (.ofText op.literal) left right) items
  | _ => .ok left

def binary : List Item → Except Fault Item
  | [] => s.missing s.rule.name "operand"
  | first :: items => do
    let left ← s.expr first
    if items.length % 2 = 1 then s.incomplete s.rule.name
    else return .ofExpr (← s.operations left items)

def unary : List Item → Except Fault Item
  | op :: operand :: _ => do
    let op ← s.token op
    let e ← s.expr operand
    match op.kind, e with
    | .minus, .literal _ _ (.int v) => return .ofExpr (.literal op.literal op.pos (.int (-v)))
    | .minus, .literal _ _ (.float v) => return .ofExpr (.literal op.literal op.pos (.float v.neg))
    | _, _ => return .ofExpr (.unary op.pos (.ofText op.literal) e)
  | _ => s.missing "unary expression" "operand"

/-! ### Suffixes -/

def suffix (assets : List Bytes) (e : Expr) : Item → Except Fault Expr
  | .call p args => .ok (callOf assets e p args)
  | .member p property => .ok (.member p e property)
  | .typeCheck p t => .ok (.typeCheck p e t)
  | .cast p t => .ok (.cast p e t)
  | it => s.unexpected it

def suffixed (assets : List Bytes) : List Item → Except Fault Item
  | [] => s.missing "postfix expression" "operand"
  | first :: suffixes => do
    let e ← s.expr first
    return .ofExpr (← suffixes.foldlM (s.suffix assets) e)

def call (items : List Item) : Except Fault Item :=
  return .call s.pos (← s.exprs items)

def member : List Item → Except Fault Item
  | it :: _ => return .member s.pos (← s.ident it)
  | [] => s.missing "member access" "property"

def typeCheck : List Item → Except Fault Item
  | it :: _ => return .typeCheck s.pos (← s.type it)
  | [] => s.missing "type check" "type"

def typeAssertion : List Item → Except Fault Item
  | it :: _ => return .cast s.pos (← s.type it)
  | [] => s.missing "type assertion" "type"

/-! ### Literals and function values -/

def literal : List Item → Except Fault Item
  | it :: _ => do
    discard (s.expr it)
    return it
  | [] => s.missing "literal" "value"

def list (items : List Item) : Except Fault Item :=
  return .ofExpr (.list s.pos (← s.exprs items))

def keyOf : Item → Except Fault Bytes
  | .node (.expr (.ident n)) => .ok n.name
  | .node (.expr (.literal _ _ (.string key))) => .ok key
  | it => s.unexpected it

def tupleItem : List Item → Except Fault Item
  | key :: value :: _ => return .field (← s.keyOf key) (← s.expr value)
  | _ => s.incomplete "tuple literal"

def tuple (items : List Item) : Except Fault Item :=
  return .ofExpr (.tuple s.pos (← s.keyed "tuple literal" Item.field? [] items))

def comprehension : List Item → Except Fault Item
  | element :: iterator :: iterable :: more => do
    let e ← s.expr element
    let x ← s.ident iterator
    let l ← s.expr iterable
    match more with
    | [] => return .ofExpr (.comprehension s.pos e x l none)
    | c :: _ => return .ofExpr (.comprehension s.pos e x l (some (← s.expr c)))
  | _ => s.missing "list comprehension" "iterable"

def lambda : List Item → Except Fault Item
  | params :: body :: _ => do
    let ps ← s.params params
    match body with
    | .node (.block b) => return .ofExpr (.lambda s.pos ps (.block b))
    | it => return .ofExpr (.lambda s.pos ps (.expr (← s.expr it)))
  | _ => s.missing "lambda" "body"

/-- The type arguments of an object creation; its arguments are passed over. -/
def creationTypes : List Item → Except Fault (List Ty)
  | [] => .ok []
  | .args _ :: items => creationTypes items
  | it :: items => return (← s.type it) :: (← creationTypes items)

def creation : List Item → Except Fault Item
  | name :: items => return .creation s.pos (← s.ident name) (← s.creationTypes items)
  | [] => s.missing "new expression" "name"

def arguments (items : List Item) : Except Fault Item :=
  return .args (← s.exprs items)

end Site

end Covenant
