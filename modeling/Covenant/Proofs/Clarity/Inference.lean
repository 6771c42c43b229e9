import Covenant.Clarity.Render
import Covenant.Proofs.Program.Veil

/-!
# Inferred types under a veil

What rendering infers from the shape of a program, the types of expressions and which branch of a
conditional is the last, does not depend on places or on the contents of strings.
-/

namespace Covenant

open Expr (knownType)

theorem Ty.isNamed_veil (name : String) (t : Ty) : t.veil.isNamed name = t.isNamed name := by
  cases t <;> simp only [veil, isNamed, Ident.veil]

theorem Ty.any_isNamed_veil (name : String) (t : Option Ty) :
    (t.map veil).any (isNamed name) = t.any (isNamed name) := by
  cases t with
  | none => rfl
  | some t => exact isNamed_veil name t

def Scope.veil (sc : Scope) : Scope :=
  sc.map fun x => (x.1, x.2.map Ty.veil)

theorem Scope.veil_bind (sc : Scope) (n : Ident) (t : Option Ty) :
    (sc.bind n t).veil = sc.veil.bind n.veil (t.map Ty.veil) := by
  rw [Scope.bind, Scope.bind, veil, List.map_cons, veil, Ident.veil]

theorem Scope.veil_bindAll (sc : Scope) (ps : List Parameter) :
    (sc.bindAll ps).veil = sc.veil.bindAll (ps.map Parameter.veil) := by
  induction ps generalizing sc with
  | nil => rfl
  | cons p ps ih =>
    rw [bindAll, List.foldl_cons, ← bindAll, ih, veil_bind]
    rfl

theorem Scope.type?_veil (sc : Scope) (name : Bytes) :
    sc.veil.type? name = (sc.type? name).map Ty.veil := by
  induction sc with
  | nil => rfl
  | cons x sc ih =>
    rw [type?, type?] at ih ⊢
    rw [veil, List.map_cons, List.lookup_cons, List.lookup_cons]
    split
    · cases x.2 <;> rfl
    · exact ih

theorem elementType_veil (t : Option Ty) :
    elementType (t.map Ty.veil) = (elementType t).map Ty.veil := by
  rcases t with _ | t
  · rfl
  · cases t <;> simp only [elementType, Option.map, Ty.veil]

variable (keep : Bool)

theorem chainValue?_veil (e : Expr) (n : Ident) :
    chainValue? (e.veil keep) n.veil = chainValue? e n := by
  cases e <;> simp only [Expr.veil, Expr.veil_comprehension, chainValue?, Ident.veil]

theorem Ty.veil_ofName (name : String) : (ofName name).veil = ofName name := by
  rw [ofName, veil]
  rfl

theorem map_veil_or (t u : Option Ty) :
    (t.or u).map Ty.veil = (t.map Ty.veil).or (u.map Ty.veil) := by
  cases t <;> rfl

/-- Inferred types under a veil. -/
theorem Expr.knownType_veil : ∀ (e : Expr) (sc : Scope),
    (e.veil keep).knownType sc.veil = (e.knownType sc).map Ty.veil
  | .ident n, sc => by simp only [veil, knownType, Ident.veil, Scope.type?_veil]
  | .literal _ _ v, sc => by
    cases v <;>
      simp [veil, Literal.veil, knownType, Ty.veil_ofName]
  | .someOf _ e, sc => by
    simp only [veil, knownType, knownType_veil e sc, Option.map_map]
    rfl
  | .list _ [], sc => by simp [veil, veilAll, knownType]
  | .list _ (e :: es), sc => by
    simp only [veil, veilAll, knownType, knownType_veil e sc, Option.map_map]
    rfl
  | .binary _ op l r, sc => by
    have hl := knownType_veil l sc
    have hr := knownType_veil r sc
    cases op <;>
      simp [veil, knownType, hl, hr, BinOp.isArithmetic, map_veil_or, Ty.veil_ofName]
  | .unary _ op e, sc => by
    have he := knownType_veil e sc
    cases op <;> simp only [veil, knownType, he, Option.map_some, Ty.veil_ofName]
  | .conditional _ c t e, sc => by
    simp only [veil, knownType, knownType_veil t sc, knownType_veil e sc, map_veil_or]
  | .member _ e property, sc => by
    simp only [veil, knownType, chainValue?_veil, Option.map_map]
    exact congrArg (Option.map · _) (funext fun c => (Ty.veil_ofName _).symm)
  | .principal .., sc | .typeCheck .., sc | .cast .., sc => by
    simp [veil, knownType, Ty.veil_ofName]
  | .noneLit _, sc | .tuple .., sc | .call .., sc | .contractCall .., sc | .assetCall .., sc
  | .map .., sc | .filter .., sc | .fold .., sc | .comprehension .., sc | .lambda .., sc => by
    simp only [veil, veil_comprehension, knownType, Option.map_none]

theorem isIterator_veil (x : Bytes) (e : Expr) : isIterator x (e.veil keep) = isIterator x e := by
  cases e <;> simp only [Expr.veil, Expr.veil_comprehension, isIterator, Ident.veil]

theorem Else.isOpen_veil (e : Else) : (e.veil keep).isOpen = e.isOpen := by
  induction e using induction_branches with
  | absent => rw [veil]
  | final b => rw [veil, isOpen, isOpen]
  | elseIf c b rest ih => rw [veil, isOpen, isOpen, ih]

end Covenant
