import Covenant.Clarity.Declaration
import Covenant.Clarity.Scope
import Covenant.Clarity.Value
import Covenant.Program.Kind

/-!
# Rendering programs as Clarity

Every statement and expression becomes a form.  A local binding takes the statements after it as
its body, and a conditional without a last branch takes them as that branch; other statements in
sequence stand in a `begin`.
-/

namespace Covenant

open Form (atom row apply pair stack sequence unit)

def Else.isOpen : Else → Bool
  | .absent => true
  | .final _ => false
  | .elseIf _ _ rest => rest.isOpen

def collect {α : Type} (results : List (Except Fault α)) : Except Fault (List α) :=
  results.mapM id

variable (target : Version)

mutual

def Expr.form (sc : Scope) : Expr → Except Fault Form
  | .ident n => .ok (atom n.name)
  | .literal _ _ v => .ok v.form
  | .principal _ address => .ok (atom ("'" ++ address))
  | .noneLit _ => .ok (atom "none")
  | .someOf _ e => return apply "some" [← Expr.form sc e]
  | .list _ es => return apply "list" (← collect (Expr.forms sc es))
  | .tuple _ fields => return apply "tuple" (← collect (Expr.fieldForms sc fields))
  | .binary p op l r => do
    let left ← Expr.form sc l
    let right ← Expr.form sc r
    op.form target p left right
  | .unary _ op e => do op.form (← Expr.form sc e)
  | .conditional _ c t e =>
    return apply "if" [← Expr.form sc c, ← Expr.form sc t, ← Expr.form sc e]
  | .member _ e property =>
    match chainValue? e property with
    | some c => .ok (atom c.word)
    | none => return apply "get" [atom property.name, ← Expr.form sc e]
  | .call _ (.member _ object property) args => do
    let args ← collect (Expr.forms sc args)
    return row (atom (hyphenated property.name) :: (← Expr.form sc object) :: args)
  | .call _ f args => do
    let args ← collect (Expr.forms sc args)
    return row ((← Expr.form sc f) :: args)
  | .contractCall _ contract function args =>
    return apply "contract-call?"
      (atom ("." ++ contract.name) :: atom function :: (← collect (Expr.forms sc args)))
  | .assetCall _ asset function args =>
    return row (atom ("nft-" ++ hyphenated function ++ "?") :: atom asset.name ::
      (← collect (assetArgs function (Expr.forms sc args))))
  | .map _ l f => return apply "map" [← Expr.form sc f, ← Expr.form sc l]
  | .filter _ l f => return apply "filter" [← Expr.form sc f, ← Expr.form sc l]
  | .fold _ l i f =>
    return apply "fold" [← Expr.form sc l, ← Expr.form sc i, ← Expr.form sc f]
  | .comprehension _ e x l none => do
    let list ← Expr.form sc l
    let body ← Expr.form (sc.bind x (elementType (l.knownType sc))) e
    return apply "map" [lambdaForm [x.name] body, list]
  | .comprehension _ e x l (some c) => do
    let list ← Expr.form sc l
    let inner := sc.bind x (elementType (l.knownType sc))
    let condition ← Expr.form inner c
    let function ← match partialForm? x.name e with
      | some f => pure f
      | none => lambdaForm [x.name] <$> Expr.form inner e
    return apply "map" [function, apply "filter" [lambdaForm [x.name] condition, list]]
  | .lambda _ ps body => Body.form (sc.bindAll ps) (row (ps.map fun p => atom p.name.name)) body
  | .typeCheck _ e t => return t.testForm (← Expr.form sc e)
  | .cast _ e t => return t.castForm (e.knownType sc) (← Expr.form sc e)

def Expr.forms (sc : Scope) : List Expr → List (Except Fault Form)
  | [] => []
  | e :: es => Expr.form sc e :: Expr.forms sc es

def Expr.fieldForms (sc : Scope) : List (Bytes × Expr) → List (Except Fault Form)
  | [] => []
  | (key, e) :: fields => pair key <$> Expr.form sc e :: Expr.fieldForms sc fields

def Body.form (sc : Scope) (params : Form) : Body → Except Fault Form
  | .expr e => return apply "lambda" [params, ← Expr.form sc e]
  | .block b => return stack [atom "lambda", params] [← Block.form sc b]

def Block.form (sc : Scope) : Block → Except Fault Form
  | .mk _ ss => return sequence (← Stmt.forms sc ss)

/-- Statements in sequence.  One that needs those after it is the last form. -/
def Stmt.forms (sc : Scope) : List Stmt → Except Fault (List Form)
  | [] => .ok []
  | .letDecl _ n t e :: rest => do
    let value ← Expr.form sc e
    match rest with
    | [] => return [letForm n value none]
    | _ :: _ =>
      let body ← Stmt.forms (sc.bind n (t.or (e.knownType sc))) rest
      return [letForm n value (some (sequence body))]
  | .constDecl _ n t e :: rest => do
    let value ← Expr.form sc e
    match rest with
    | [] => return [letForm n value none]
    | _ :: _ =>
      let body ← Stmt.forms (sc.bind n (t.or (e.knownType sc))) rest
      return [letForm n value (some (sequence body))]
  | .ifStmt p c b more :: rest => do
    let condition ← Expr.form sc c
    let body ← Block.form sc b
    if more.isOpen then
      let fallen := match rest with
        | [] => .error ⟨.ifWithoutElse, p⟩
        | _ :: _ => sequence <$> Stmt.forms sc rest
      return [stack [atom "if", condition] [body, ← Else.form sc fallen more]]
    else
      let otherwise ← Else.form sc (.error ⟨.ifWithoutElse, p⟩) more
      return stack [atom "if", condition] [body, otherwise] :: (← Stmt.forms sc rest)
  | s :: rest => do
    let first ← Stmt.form sc s
    return first :: (← Stmt.forms sc rest)

/-- What a conditional does when its first condition fails; `fallen` is what follows when no
branch covers the case. -/
def Else.form (sc : Scope) (fallen : Except Fault Form) : Else → Except Fault Form
  | .absent => fallen
  | .final b => Block.form sc b
  | .elseIf c b rest => do
    let condition ← Expr.form sc c
    let body ← Block.form sc b
    let otherwise ← Else.form sc fallen rest
    return stack [atom "if", condition] [body, otherwise]

def Stmt.form (sc : Scope) : Stmt → Except Fault Form
  | .fnDecl f => Fn.form false f
  | .letDecl _ n _ e => return letForm n (← Expr.form sc e) none
  | .constDecl _ n _ e => return letForm n (← Expr.form sc e) none
  | .mapConst _ _ _ _ _ m => .ok m.form
  | .mapDecl m => .ok m.form
  | .assetDecl _ n fields => assetForm n fields
  | .traitDecl _ n fs => traitForm n fs
  | .ifStmt p c b rest => do
    let condition ← Expr.form sc c
    let body ← Block.form sc b
    let otherwise ← Else.form sc (.error ⟨.ifWithoutElse, p⟩) rest
    return stack [atom "if", condition] [body, otherwise]
  | .tryStmt _ b n h => do
    let body ← Block.form sc b
    let handler ← Block.form (sc.bind n none) h
    return stack [atom "try"] [body, apply "catch" [atom n.name, handler]]
  | .throwStmt _ e => return apply "error" [← Expr.form sc e]
  | .returnStmt _ none => .ok unit
  | .returnStmt _ (some e) => Expr.form sc e
  | .exprStmt _ e => Expr.form sc e
  | .importDecl _ names source => .ok (useForm names source)
  | .exportDecl _ s => Stmt.form sc s

def Fn.form (exported : Bool) : Fn → Except Fault Form
  | .mk _ _ _ _ _ none => .error ⟨.noRendering "function signature outside a trait", {}⟩
  | f@(.mk _ _ n ps _ (some b)) => do
    let params ← ps.mapM Parameter.form
    let body ← Block.form (Scope.bindAll [] ps) b
    return stack [atom ("define-" ++ visibility f exported), row (atom n.name :: params)] [body]

end

def dataVariable (name : Ident) (type : Option Ty) (value : Expr) : Except Fault Form :=
  match type.or (value.knownType []) with
  | none => .error ⟨.untypedVariable name.name, name.pos⟩
  | some t => return apply "define-data-var" [atom name.name, t.form, ← value.form target []]

def Stmt.topForm (exported : Bool) : Stmt → Except Fault Form
  | .exportDecl _ s => Stmt.topForm true s
  | .fnDecl f => f.form target exported
  | .letDecl _ n t e => dataVariable target n t e
  | .constDecl _ n _ e =>
    return apply "define-constant" [atom n.name, ← e.form target []]
  | s => s.form target []

def Stmt.isSetOff : Stmt → Bool
  | .fnDecl _ | .exportDecl .. => true
  | _ => false

namespace Program

def renderOne (s : Stmt) : Except Fault Bytes :=
  return (← s.topForm target false).print 0

def renderRest : List Stmt → Except Fault Bytes
  | [] => .ok []
  | s :: ss => do
    let text ← renderOne target s
    let rest ← renderRest ss
    return (if s.isSetOff then Bytes.ofString "\n\n" else "\n") ++ text ++ rest

def render (p : Program) : Except Fault Bytes :=
  match p.statements with
  | [] => .ok []
  | s :: ss => do
    let text ← renderOne target s
    return text ++ (← renderRest target ss)

/-- The kinds of the top-level statements that are rendered, up to the first fault. -/
def renderTrace (p : Program) : List Bytes :=
  (p.statements.takeWhile fun s => (renderOne target s).isOk).map fun s =>
    "generate " ++ s.kind

end Program

end Covenant
