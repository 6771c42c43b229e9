import Covenant.Clarity.Render

/-!
# Occurrences of expressions

An expression occurs in a program below binders: parameters, local bindings, iterators and caught
values, and the names of local declarations.  These are its trail, the innermost first.
-/

namespace Covenant

/-! ### Trails -/

/-- What brings a name into force for the parts behind or inside it. -/
inductive Binder where
  | param (p : Parameter)
  /-- A local binding, as it stands or exported. -/
  | binding (exported : Bool) (name : Ident) (type : Option Ty) (value : Expr)
  /-- The iterator of a comprehension over the list. -/
  | iterator (name : Ident) (list : Expr)
  /-- The name of a caught error. -/
  | caught (name : Ident)
  /-- The name of a function, map, asset or trait. -/
  | declared (name : Ident)
  /-- The start of a function. -/
  | function

/-- What rendering knows of names below the binder.  Exported bindings and declared names are
passed over, and nothing is known from outside of a function. -/
def Binder.scope (sc : Scope) : Binder → Scope
  | param p => sc.bind p.name p.type
  | binding false n t e => sc.bind n (t.or (e.knownType sc))
  | iterator x l => sc.bind x (elementType (l.knownType sc))
  | caught n => sc.bind n none
  | binding true .. | declared _ => sc
  | function => []

abbrev Trail := List Binder

/-- The scope in which rendering meets what stands below the binders. -/
def Trail.scope : Trail → Scope
  | [] => []
  | b :: tr => b.scope (scope tr)

/-- The trail below parameters, of which a later one hides an earlier one. -/
def Trail.bindAll (tr : Trail) (ps : List Parameter) : Trail :=
  ps.foldl (fun tr p => .param p :: tr) tr

theorem Trail.scope_bindAll (tr : Trail) (ps : List Parameter) :
    (tr.bindAll ps).scope = tr.scope.bindAll ps := by
  induction ps generalizing tr with
  | nil => rfl
  | cons p ps ih => exact ih (.param p :: tr)

def Stmt.extend (tr : Trail) (exported : Bool) : Stmt → Trail
  | .letDecl _ n t e | .constDecl _ n t e => .binding exported n t e :: tr
  | .fnDecl f => .declared f.name :: tr
  | .mapConst _ _ n _ _ _ | .assetDecl _ n _ | .traitDecl _ n _ => .declared n :: tr
  | .mapDecl m => .declared m.name :: tr
  | .importDecl _ names _ => names.foldl (fun tr n => .declared n :: tr) tr
  | .exportDecl _ s => s.extend tr true
  | .ifStmt .. | .tryStmt .. | .throwStmt .. | .returnStmt .. | .exprStmt .. => tr

theorem Trail.scope_declared (tr : Trail) (names : List Ident) :
    scope (names.foldl (fun tr n => .declared n :: tr) tr) = tr.scope := by
  induction names generalizing tr with
  | nil => rfl
  | cons n names ih => exact ih (.declared n :: tr)

def Stmt.scopeAfter (sc : Scope) : Stmt → Scope
  | .letDecl _ n t e | .constDecl _ n t e => sc.bind n (t.or (e.knownType sc))
  | _ => sc

theorem Stmt.scope_extend_true (tr : Trail) : ∀ s : Stmt, (s.extend tr true).scope = tr.scope
  | .exportDecl _ s => by
    exact scope_extend_true tr s
  | .importDecl _ names _ => by
    rw [extend]
    exact Trail.scope_declared tr names
  | .letDecl .. | .constDecl .. | .fnDecl _ | .mapConst .. | .assetDecl .. | .traitDecl ..
  | .mapDecl _ | .ifStmt .. | .tryStmt .. | .throwStmt .. | .returnStmt .. | .exprStmt .. => by
    rw [extend] <;> rfl

theorem Stmt.scope_extend (tr : Trail) (s : Stmt) :
    (s.extend tr false).scope = s.scopeAfter tr.scope := by
  cases s with
  | exportDecl _ s =>
    exact scope_extend_true tr s
  | importDecl _ names _ =>
    rw [extend]
    exact Trail.scope_declared tr names
  | _ => rw [extend] <;> rfl

/-! ### Occurrences -/

/-- An expression at its place in a program. -/
structure Occurrence where
  trail : Trail
  expr : Expr

mutual

/-- The expression and those inside it.  A name that is only called is none of them. -/
def Expr.occurrences (tr : Trail) : Expr → List Occurrence
  | e@(.ident _) | e@(.literal ..) | e@(.principal ..) | e@(.noneLit _) => [⟨tr, e⟩]
  | e@(.someOf _ v) | e@(.unary _ _ v) | e@(.typeCheck _ v _) | e@(.cast _ v _)
  | e@(.member _ v _) => ⟨tr, e⟩ :: v.occurrences tr
  | e@(.list _ es) | e@(.contractCall _ _ _ es) | e@(.assetCall _ _ _ es)
  | e@(.call _ (.ident _) es) => ⟨tr, e⟩ :: Expr.allOccurrences tr es
  | e@(.tuple _ fields) => ⟨tr, e⟩ :: Expr.fieldOccurrences tr fields
  | e@(.binary _ _ l r) | e@(.map _ l r) | e@(.filter _ l r) =>
    ⟨tr, e⟩ :: (l.occurrences tr ++ r.occurrences tr)
  | e@(.conditional _ c y n) | e@(.fold _ c y n) =>
    ⟨tr, e⟩ :: (c.occurrences tr ++ y.occurrences tr ++ n.occurrences tr)
  | e@(.call _ f es) => ⟨tr, e⟩ :: (f.occurrences tr ++ Expr.allOccurrences tr es)
  | e@(.comprehension _ v x l none) =>
    ⟨tr, e⟩ :: (l.occurrences tr ++ v.occurrences (.iterator x l :: tr))
  | e@(.comprehension _ v x l (some c)) =>
    ⟨tr, e⟩ :: (l.occurrences tr ++ c.occurrences (.iterator x l :: tr) ++
      v.occurrences (.iterator x l :: tr))
  | e@(.lambda _ ps body) => ⟨tr, e⟩ :: body.occurrences (tr.bindAll ps)

def Expr.allOccurrences (tr : Trail) : List Expr → List Occurrence
  | [] => []
  | e :: es => e.occurrences tr ++ Expr.allOccurrences tr es

def Expr.fieldOccurrences (tr : Trail) : List (Bytes × Expr) → List Occurrence
  | [] => []
  | (_, e) :: fields => e.occurrences tr ++ Expr.fieldOccurrences tr fields

def Body.occurrences (tr : Trail) : Body → List Occurrence
  | .expr e => e.occurrences tr
  | .block b => b.occurrences tr

def Block.occurrences (tr : Trail) : Block → List Occurrence
  | .mk _ ss => Stmt.allOccurrences tr ss

/-- The expressions in statements, each of which stands below those before it. -/
def Stmt.allOccurrences (tr : Trail) : List Stmt → List Occurrence
  | [] => []
  | s :: rest => s.occurrences tr ++ Stmt.allOccurrences (s.extend tr false) rest

def Else.occurrences (tr : Trail) : Else → List Occurrence
  | .absent => []
  | .final b => b.occurrences tr
  | .elseIf c b rest => c.occurrences tr ++ b.occurrences tr ++ rest.occurrences tr

def Stmt.occurrences (tr : Trail) : Stmt → List Occurrence
  | .fnDecl f => f.occurrences tr
  | .letDecl _ _ _ e | .constDecl _ _ _ e | .throwStmt _ e | .returnStmt _ (some e)
  | .exprStmt _ e => e.occurrences tr
  | .ifStmt _ c b rest => c.occurrences tr ++ b.occurrences tr ++ rest.occurrences tr
  | .tryStmt _ b n handler => b.occurrences tr ++ handler.occurrences (.caught n :: tr)
  | .exportDecl _ s => s.occurrences tr
  | .returnStmt _ none | .mapConst .. | .mapDecl _ | .assetDecl .. | .traitDecl ..
  | .importDecl .. => []

def Fn.occurrences (tr : Trail) : Fn → List Occurrence
  | .mk _ _ _ _ _ none => []
  | .mk _ _ _ ps _ (some b) => b.occurrences (Trail.bindAll (.function :: tr) ps)

end

end Covenant
