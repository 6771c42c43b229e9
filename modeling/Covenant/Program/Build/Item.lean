import Covenant.Diagnostic.Fault
import Covenant.Number.Numeral
import Covenant.Program.Kind
import Covenant.Tree

/-!
# Items

A parse tree is turned into a program from the leaves up.  What a subtree becomes is an `Item`:
a finished part of the program, or something that only its parent can make sense of.  A `Site` is
the rule that is being built; it takes items as what the rule needs, or says which one it cannot
use.
-/

namespace Covenant

/-- What a subtree becomes. -/
inductive Item where
  /-- A finished part. -/
  | node (n : Node)
  /-- A bare token. -/
  | token (t : Token)
  | params (ps : List Parameter)
  | args (es : List Expr)
  /-- A named part of a tuple. -/
  | field (key : Bytes) (value : Expr)
  /-- A named part of a tuple type. -/
  | typeField (key : Bytes) (type : Ty)
  | decorator (d : Decorator)
  /-- The creation of an object, which only a map constant can use. -/
  | creation (pos : Pos) (name : Ident) (types : List Ty)
  | call (pos : Pos) (args : List Expr)
  | member (pos : Pos) (property : Ident)
  | typeCheck (pos : Pos) (type : Ty)
  | cast (pos : Pos) (type : Ty)

namespace Item

/-- A part of a tuple, with its key. -/
def field? : Item → Option (Bytes × Expr)
  | field key e => some (key, e)
  | _ => none

/-- A part of a tuple type, with its key. -/
def typeField? : Item → Option (Bytes × Ty)
  | typeField key t => some (key, t)
  | _ => none

def kind : Item → Bytes
  | node n => n.kind
  | token t => "token '" ++ t.literal ++ "'"
  | params _ => "parameter list"
  | args _ => "argument list"
  | field .. => "tuple field"
  | typeField .. => "tuple type field"
  | decorator _ => "decorator"
  | creation .. => "new expression"
  | call .. => "call"
  | member .. => "member access"
  | typeCheck .. => "type check"
  | cast .. => "type assertion"

def ofExpr (e : Expr) : Item := .node (.expr e)

def ofType (t : Ty) : Item := .node (.type t)

def ofStmt (s : Stmt) : Item := .node (.stmt s)

def ofToken (t : Token) : Except Fault Item :=
  match t.kind with
  | .ident => .ok (ofExpr (.ident ⟨t.literal, t.pos⟩))
  | .int =>
    match Numeral.int64? t.literal with
    | some v => .ok (ofExpr (.literal t.literal t.pos (.int v)))
    | none => .error ⟨.badNumber t.literal, t.pos⟩
  | .float =>
    match Numeral.binary64? t.literal with
    | some v => .ok (ofExpr (.literal t.literal t.pos (.float v)))
    | none => .error ⟨.badNumber t.literal, t.pos⟩
  | .string => .ok (ofExpr (.literal t.literal t.pos (.string t.literal)))
  | .kwTrue | .kwFalse =>
    .ok (ofExpr (.literal t.literal t.pos (.bool (t.literal = Bytes.ofString "true"))))
  | .kwNone => .ok (ofExpr (.noneLit t.pos))
  | .principal => .ok (ofExpr (.principal t.pos t.literal))
  | _ => .ok (.token t)

end Item

/-- A rule that is being built. -/
structure Site where
  rule : Rule
  pos : Pos

namespace Site

variable (s : Site)

def unexpected {α : Type} (it : Item) : Except Fault α :=
  .error ⟨.unexpected it.kind s.rule.name, s.pos⟩

def misplaced {α : Type} (got rule : Bytes) : Except Fault α :=
  .error ⟨.unexpected got rule, s.pos⟩

def missing {α : Type} (rule field : Bytes) : Except Fault α :=
  .error ⟨.missing rule field, s.pos⟩

def noName {α : Type} (rule : Bytes) : Except Fault α :=
  .error ⟨.noName rule, s.pos⟩

def incomplete {α : Type} (rule : Bytes) : Except Fault α :=
  .error ⟨.incompletePair rule, s.pos⟩

/-- The parts of a tuple behind those whose keys are `seen`; a key stands once. -/
def keyed {α : Type} (tuple : Bytes) (part? : Item → Option (Bytes × α)) :
    (seen : List Bytes) → List Item → Except Fault (List (Bytes × α))
  | _, [] => .ok []
  | seen, it :: items =>
    match part? it with
    | none => s.unexpected it
    | some (key, a) =>
      if seen.contains key then s.misplaced ("duplicate field '" ++ key ++ "'") tuple
      else return (key, a) :: (← keyed tuple part? (key :: seen) items)

def expr : Item → Except Fault Expr
  | .node (.expr e) => .ok e
  | .creation p name _ => .error ⟨.misplacedNew name.name, p⟩
  | it => s.unexpected it

def exprs (items : List Item) : Except Fault (List Expr) :=
  items.mapM s.expr

def stmt : Item → Except Fault Stmt
  | .node (.stmt t) => .ok t
  | it => s.unexpected it

def block : Item → Except Fault Block
  | .node (.block b) => .ok b
  | it => s.unexpected it

def ident : Item → Except Fault Ident
  | .node (.expr (.ident n)) => .ok n
  | it => s.unexpected it

def type : Item → Except Fault Ty
  | .node (.type t) => .ok t
  | it => s.unexpected it

def parameter : Item → Except Fault Parameter
  | .node (.parameter p) => .ok p
  | it => s.unexpected it

def params : Item → Except Fault (List Parameter)
  | .params ps => .ok ps
  | it => s.unexpected it

def function : Item → Except Fault Fn
  | .node (.stmt (.fnDecl f)) => .ok f
  | it => s.unexpected it

def token : Item → Except Fault Token
  | .token t => .ok t
  | it => s.unexpected it

end Site

end Covenant
