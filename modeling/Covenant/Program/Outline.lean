import Covenant.Program.Kind

/-!
# Outlines

The parts of a program in preorder, each with its depth: a flat view of the whole tree.
-/

namespace Covenant

/-- A line of an outline. -/
inductive OutlineEntry where
  /-- The program, by its first word. -/
  | root (word : Bytes)
  /-- A part with its kind, word and place. -/
  | part (kind : String) (word : Bytes) (pos : Pos)
  /-- A named part of a tuple or tuple type. -/
  | field (kind : String) (key : Bytes)

abbrev Outline := List (Nat × OutlineEntry)

def Ident.outline (depth : Nat) (n : Ident) : Outline :=
  [(depth, .part "Identifier" n.name n.pos)]

namespace Ty

mutual

def outline (depth : Nat) : Ty → Outline
  | named n => [(depth, .part "NamedType" n.name n.pos)]
  | list p t => (depth, .part "ListType" (list p t).word p) :: t.outline (depth + 1)
  | tuple p fields =>
    (depth, .part "TupleType" (tuple p []).word p) :: outlineFields (depth + 1) fields
  | optional p t => (depth, .part "OptionalType" (optional p t).word p) :: t.outline (depth + 1)
  | response p ok err =>
    (depth, .part "ResponseType" (response p ok err).word p) ::
      (ok.outline (depth + 1) ++ err.outline (depth + 1))

def outlineFields (depth : Nat) : List (Bytes × Ty) → Outline
  | [] => []
  | (key, t) :: fields =>
    (depth, .field "TupleTypeField" key) ::
      (t.outline (depth + 1) ++ outlineFields depth fields)

end

def outline? (depth : Nat) : Option Ty → Outline
  | none => []
  | some t => t.outline depth

end Ty

def Parameter.outline (depth : Nat) (p : Parameter) : Outline :=
  (depth, .part "Parameter" p.name.name p.name.pos) ::
    (p.name.outline (depth + 1) ++ Ty.outline? (depth + 1) p.type)

def Parameter.outlineAll (depth : Nat) (ps : List Parameter) : Outline :=
  ps.flatMap (Parameter.outline depth)

def MapShape.outline (depth : Nat) (m : MapShape) : Outline :=
  (depth, .part "MapDeclaration" m.word m.pos) ::
    (m.name.outline (depth + 1) ++ m.key.outline (depth + 1) ++ m.value.outline (depth + 1))

def Expr.entry (depth : Nat) (e : Expr) : Nat × OutlineEntry :=
  (depth, .part e.kind e.word e.pos)

def Stmt.entry (depth : Nat) (s : Stmt) : Nat × OutlineEntry :=
  (depth, .part s.kind s.word s.pos)

mutual

def Expr.outline (depth : Nat) : Expr → Outline
  | x@(.ident _) | x@(.literal ..) | x@(.principal ..) | x@(.noneLit _) => [x.entry depth]
  | x@(.someOf _ e) => x.entry depth :: e.outline (depth + 1)
  | x@(.list _ es) => x.entry depth :: Expr.outlineAll (depth + 1) es
  | x@(.tuple _ fields) => x.entry depth :: Expr.outlineFields (depth + 1) fields
  | x@(.binary _ _ l r) => x.entry depth :: (l.outline (depth + 1) ++ r.outline (depth + 1))
  | x@(.unary _ _ e) => x.entry depth :: e.outline (depth + 1)
  | x@(.conditional _ c t e) =>
    x.entry depth :: (c.outline (depth + 1) ++ t.outline (depth + 1) ++ e.outline (depth + 1))
  | x@(.member _ e p) => x.entry depth :: (e.outline (depth + 1) ++ p.outline (depth + 1))
  | x@(.call _ f args) =>
    x.entry depth :: (f.outline (depth + 1) ++ Expr.outlineAll (depth + 1) args)
  | x@(.contractCall _ c _ args) =>
    x.entry depth :: (c.outline (depth + 1) ++ Expr.outlineAll (depth + 1) args)
  | x@(.assetCall _ a _ args) =>
    x.entry depth :: (a.outline (depth + 1) ++ Expr.outlineAll (depth + 1) args)
  | x@(.map _ l f) => x.entry depth :: (l.outline (depth + 1) ++ f.outline (depth + 1))
  | x@(.filter _ l f) => x.entry depth :: (l.outline (depth + 1) ++ f.outline (depth + 1))
  | x@(.fold _ l i f) =>
    x.entry depth :: (l.outline (depth + 1) ++ i.outline (depth + 1) ++ f.outline (depth + 1))
  | x@(.comprehension _ e n l none) =>
    x.entry depth :: (e.outline (depth + 1) ++ n.outline (depth + 1) ++ l.outline (depth + 1))
  | x@(.comprehension _ e n l (some c)) =>
    x.entry depth :: (e.outline (depth + 1) ++ n.outline (depth + 1) ++ l.outline (depth + 1) ++
      c.outline (depth + 1))
  | x@(.lambda _ ps b) =>
    x.entry depth :: (Parameter.outlineAll (depth + 1) ps ++ b.outline (depth + 1))
  | x@(.typeCheck _ e t) => x.entry depth :: (e.outline (depth + 1) ++ t.outline (depth + 1))
  | x@(.cast _ e t) => x.entry depth :: (e.outline (depth + 1) ++ t.outline (depth + 1))

def Expr.outlineAll (depth : Nat) : List Expr → Outline
  | [] => []
  | e :: es => e.outline depth ++ Expr.outlineAll depth es

def Expr.outlineFields (depth : Nat) : List (Bytes × Expr) → Outline
  | [] => []
  | (key, e) :: fields =>
    (depth, .field "TupleField" key) ::
      (e.outline (depth + 1) ++ Expr.outlineFields depth fields)

def Body.outline (depth : Nat) : Body → Outline
  | .expr e => e.outline depth
  | .block b => b.outline depth

def Block.outline (depth : Nat) : Block → Outline
  | .mk p ss => (depth, .part "Block" "\x7b" p) :: Stmt.outlineAll (depth + 1) ss

def Stmt.outline (depth : Nat) : Stmt → Outline
  | .fnDecl f => f.outline depth
  | .mapDecl m => m.outline depth
  | x@(.letDecl _ n t e) =>
    x.entry depth :: (n.outline (depth + 1) ++ Ty.outline? (depth + 1) t ++ e.outline (depth + 1))
  | x@(.constDecl _ n t e) =>
    x.entry depth :: (n.outline (depth + 1) ++ Ty.outline? (depth + 1) t ++ e.outline (depth + 1))
  | x@(.mapConst _ ds n t none m) =>
    x.entry depth :: (Decorator.outlineAll (depth + 1) ds ++ n.outline (depth + 1) ++
      Ty.outline? (depth + 1) t ++ m.outline (depth + 1))
  | x@(.mapConst _ ds n t (some e) m) =>
    x.entry depth :: (Decorator.outlineAll (depth + 1) ds ++ n.outline (depth + 1) ++
      Ty.outline? (depth + 1) t ++ e.outline (depth + 1) ++ m.outline (depth + 1))
  | x@(.assetDecl _ n fields) =>
    x.entry depth :: (n.outline (depth + 1) ++ Parameter.outlineAll (depth + 1) fields)
  | x@(.traitDecl _ n fs) =>
    x.entry depth :: (n.outline (depth + 1) ++ Fn.outlineAll (depth + 1) fs)
  | x@(.ifStmt p c b rest) =>
    x.entry depth ::
      (c.outline (depth + 1) ++ b.outline (depth + 1) ++ rest.outline p (depth + 1))
  | x@(.tryStmt _ b n h) =>
    x.entry depth :: (b.outline (depth + 1) ++ n.outline (depth + 1) ++ h.outline (depth + 1))
  | x@(.throwStmt _ e) => x.entry depth :: e.outline (depth + 1)
  | x@(.returnStmt _ none) => [x.entry depth]
  | x@(.returnStmt _ (some e)) => x.entry depth :: e.outline (depth + 1)
  | x@(.exprStmt _ e) => x.entry depth :: e.outline (depth + 1)
  | x@(.importDecl _ names _) => x.entry depth :: names.flatMap (Ident.outline (depth + 1))
  | x@(.exportDecl _ s) => x.entry depth :: s.outline (depth + 1)

def Stmt.outlineAll (depth : Nat) : List Stmt → Outline
  | [] => []
  | s :: ss => s.outline depth ++ Stmt.outlineAll depth ss

/-- The outline of the further branches of a conditional statement that starts at `start`. -/
def Else.outline (start : Pos) (depth : Nat) : Else → Outline
  | .absent => []
  | .final b => b.outline depth
  | .elseIf c b rest =>
    (depth, .part "ElseIf" "else" start) ::
      (c.outline (depth + 1) ++ b.outline (depth + 1) ++ rest.outline start depth)

def Fn.outline (depth : Nat) : Fn → Outline
  | f@(.mk p ds n ps r none) =>
    (depth, .part "FunctionDeclaration" f.word p) ::
      (Decorator.outlineAll (depth + 1) ds ++ n.outline (depth + 1) ++
        Parameter.outlineAll (depth + 1) ps ++ Ty.outline? (depth + 1) r)
  | f@(.mk p ds n ps r (some b)) =>
    (depth, .part "FunctionDeclaration" f.word p) ::
      (Decorator.outlineAll (depth + 1) ds ++ n.outline (depth + 1) ++
        Parameter.outlineAll (depth + 1) ps ++ Ty.outline? (depth + 1) r ++
        b.outline (depth + 1))

def Fn.outlineAll (depth : Nat) : List Fn → Outline
  | [] => []
  | f :: fs => f.outline depth ++ Fn.outlineAll depth fs

def Decorator.outline (depth : Nat) : Decorator → Outline
  | .mk p n none => [(depth, .part "Decorator" ("@" ++ n) p)]
  | .mk p n (some a) => (depth, .part "Decorator" ("@" ++ n) p) :: a.outline (depth + 1)

def Decorator.outlineAll (depth : Nat) : List Decorator → Outline
  | [] => []
  | d :: ds => d.outline depth ++ Decorator.outlineAll depth ds

def Node.outline (depth : Nat) : Node → Outline
  | .expr e => e.outline depth
  | .type t => t.outline depth
  | .parameter p => p.outline depth
  | .block b => b.outline depth
  | .stmt s => s.outline depth
  | .program ss => (depth, .root (Program.mk ss).word) :: Stmt.outlineAll (depth + 1) ss

end

def Program.outline (p : Program) : Outline :=
  (0, .root p.word) :: Stmt.outlineAll 1 p.statements

end Covenant
