import Covenant.Number.Shortest
import Covenant.Program.Basic
import Covenant.Text.Quoted

/-!
# Printing programs

A program in a normal form of its own language: operators in parentheses, one statement a line.
-/

namespace Covenant

namespace Ty

mutual

def print : Ty → Bytes
  | named n => n.name
  | list _ t => "List<" ++ t.print ++ ">"
  | tuple _ fields => "Tuple<" ++ printFields fields ++ ">"
  | optional _ t => "Optional<" ++ t.print ++ ">"
  | response _ ok err => "Response<" ++ ok.print ++ ", " ++ err.print ++ ">"

def printFields : List (Bytes × Ty) → Bytes
  | [] => []
  | [(key, t)] => key ++ ": " ++ t.print
  | (key, t) :: f :: fields => key ++ ": " ++ t.print ++ ", " ++ printFields (f :: fields)

end

def get? (key : Bytes) : Ty → Option Ty
  | tuple _ fields => fields.lookup key
  | _ => none

end Ty

def Parameter.print (p : Parameter) : Bytes :=
  match p.type with
  | none => p.name.name
  | some t => p.name.name ++ ": " ++ t.print

def Parameter.printAll (ps : List Parameter) : Bytes :=
  Bytes.join ", " (ps.map Parameter.print)

def Literal.print : Literal → Bytes
  | int v => Bytes.ofInt v.toInt
  | float v => v.write Decimal.general
  | string s => Quoted.encode s
  | bool true => "true"
  | bool false => "false"

def printBinding (keyword : String) (name : Ident) (type : Option Ty) (value : Bytes) : Bytes :=
  let typed : Bytes := match type with
    | none => []
    | some t => ": " ++ t.print
  keyword ++ " " ++ name.name ++ typed ++ value ++ ";"

def MapShape.print (m : MapShape) : Bytes :=
  "map " ++ m.name.name ++ ": Map<" ++ m.key.print ++ ", " ++ m.value.print ++ ">;"

mutual

def Expr.print : Expr → Bytes
  | .ident n => n.name
  | .literal _ _ v => v.print
  | .principal _ address => "'" ++ address
  | .noneLit _ => "none"
  | .someOf _ e => "some(" ++ e.print ++ ")"
  | .list _ es => "[" ++ Expr.printAll es ++ "]"
  | .tuple _ fields => "\x7b" ++ Expr.printFields fields ++ "\x7d"
  | .binary _ op l r => "(" ++ l.print ++ " " ++ op.text ++ " " ++ r.print ++ ")"
  | .unary _ op e => "(" ++ op.text ++ e.print ++ ")"
  | .conditional _ c t e => "(" ++ c.print ++ " ? " ++ t.print ++ " : " ++ e.print ++ ")"
  | .member _ e p => e.print ++ "." ++ p.name
  | .call _ f args => f.print ++ "(" ++ Expr.printAll args ++ ")"
  | .contractCall _ c f args => c.name ++ "." ++ f ++ "(" ++ Expr.printAll args ++ ")"
  | .assetCall _ a f args => a.name ++ "." ++ f ++ "(" ++ Expr.printAll args ++ ")"
  | .map _ l f => "map(" ++ l.print ++ ", " ++ f.print ++ ")"
  | .filter _ l f => "filter(" ++ l.print ++ ", " ++ f.print ++ ")"
  | .fold _ l i f => "fold(" ++ l.print ++ ", " ++ i.print ++ ", " ++ f.print ++ ")"
  | .comprehension _ e x l none =>
    "[" ++ e.print ++ " for " ++ x.name ++ " in " ++ l.print ++ "]"
  | .comprehension _ e x l (some c) =>
    "[" ++ e.print ++ " for " ++ x.name ++ " in " ++ l.print ++ " if " ++ c.print ++ "]"
  | .lambda _ ps b => "(" ++ Parameter.printAll ps ++ ") => " ++ b.print
  | .typeCheck _ e t => "(" ++ e.print ++ " is " ++ t.print ++ ")"
  | .cast _ e t => "(" ++ e.print ++ " as " ++ t.print ++ ")"

def Expr.printAll : List Expr → Bytes
  | [] => []
  | [e] => e.print
  | e :: f :: es => e.print ++ ", " ++ Expr.printAll (f :: es)

def Expr.printFields : List (Bytes × Expr) → Bytes
  | [] => []
  | [(key, e)] => key ++ ": " ++ e.print
  | (key, e) :: f :: fields => key ++ ": " ++ e.print ++ ", " ++ Expr.printFields (f :: fields)

def Body.print : Body → Bytes
  | .expr e => e.print
  | .block b => b.print

def Block.print : Block → Bytes
  | .mk _ ss => "\x7b " ++ Stmt.printAll ss ++ "\x7d"

def Stmt.print : Stmt → Bytes
  | .fnDecl f => f.print
  | .letDecl _ n t e => printBinding "let" n t (" = " ++ e.print)
  | .constDecl _ n t e => printBinding "const" n t (" = " ++ e.print)
  | .mapConst _ ds n t none _ => Decorator.printAll ds ++ printBinding "const" n t []
  | .mapConst _ ds n t (some e) _ =>
    Decorator.printAll ds ++ printBinding "const" n t (" = " ++ e.print)
  | .mapDecl m => m.print
  | .assetDecl _ n fields =>
    "@asset class " ++ n.name ++ " \x7b " ++
      fields.flatMap (fun f => f.print ++ Bytes.ofString "; ") ++ "\x7d"
  | .traitDecl _ n fs => "trait " ++ n.name ++ " \x7b " ++ Fn.printAll fs ++ "\x7d"
  | .ifStmt _ c b rest => "if (" ++ c.print ++ ") " ++ b.print ++ rest.print
  | .tryStmt _ b n h => "try " ++ b.print ++ " catch (" ++ n.name ++ ") " ++ h.print
  | .throwStmt _ e => "throw " ++ e.print ++ ";"
  | .returnStmt _ none => "return;"
  | .returnStmt _ (some e) => "return " ++ e.print ++ ";"
  | .exprStmt _ e => e.print ++ ";"
  | .importDecl _ names source =>
    "import \x7b " ++ Bytes.join ", " (names.map Ident.name) ++ " \x7d from '" ++ source ++ "';"
  | .exportDecl _ s => "export " ++ s.print

def Stmt.printAll : List Stmt → Bytes
  | [] => []
  | s :: ss => s.print ++ " " ++ Stmt.printAll ss

def Stmt.printLines : List Stmt → Bytes
  | [] => []
  | [s] => s.print
  | s :: t :: ss => s.print ++ "\n" ++ Stmt.printLines (t :: ss)

def Else.print : Else → Bytes
  | .absent => []
  | .final b => " else " ++ b.print
  | .elseIf c b rest => " else if (" ++ c.print ++ ") " ++ b.print ++ rest.print

def Fn.print : Fn → Bytes
  | .mk _ ds n ps r none =>
    Decorator.printAll ds ++ n.name ++ "(" ++ Parameter.printAll ps ++ ")" ++
      (match r with
        | none => []
        | some t => Bytes.ofString ": " ++ t.print) ++ ";"
  | .mk _ ds n ps r (some b) =>
    Decorator.printAll ds ++ "function " ++ n.name ++ "(" ++ Parameter.printAll ps ++ ")" ++
      (match r with
        | none => []
        | some t => Bytes.ofString ": " ++ t.print) ++ " " ++ b.print

def Fn.printAll : List Fn → Bytes
  | [] => []
  | f :: fs => f.print ++ " " ++ Fn.printAll fs

def Decorator.print : Decorator → Bytes
  | .mk _ n none => "@" ++ n
  | .mk _ n (some a) => "@" ++ n ++ "(" ++ a.print ++ ")"

def Decorator.printAll : List Decorator → Bytes
  | [] => []
  | d :: ds => d.print ++ " " ++ Decorator.printAll ds

def Node.print : Node → Bytes
  | .expr e => e.print
  | .type t => t.print
  | .parameter p => p.print
  | .block b => b.print
  | .stmt s => s.print
  | .program ss => Stmt.printLines ss

end

def Program.print (p : Program) : Bytes :=
  Stmt.printLines p.statements

def Expr.get? (key : Bytes) : Expr → Option Expr
  | .tuple _ fields => fields.lookup key
  | _ => none

end Covenant
