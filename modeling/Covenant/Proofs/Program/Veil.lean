import Covenant.Proofs.Program.Parts

/-!
# Programs up to places and strings

`Expr.veil` and its companions forget where the parts of a program stand and the text of the first
token of a literal.  They keep the contents of strings, the keys of tuples and the paths of imports,
or forget these as well.  Two programs with one veil are the same program at other places, or with
other strings.
-/

namespace Covenant

open List

def Bytes.veil (keep : Bool) (s : Bytes) : Bytes :=
  if keep then s else []

def Ident.veil (n : Ident) : Ident :=
  ⟨n.name, {}⟩

namespace Ty

mutual

def veil : Ty → Ty
  | named n => named n.veil
  | list _ t => list {} t.veil
  | tuple _ fields => tuple {} (veilFields fields)
  | optional _ t => optional {} t.veil
  | response _ ok err => response {} ok.veil err.veil

def veilFields : List (Bytes × Ty) → List (Bytes × Ty)
  | [] => []
  | (key, t) :: fields => (key, t.veil) :: veilFields fields

end

end Ty

def Parameter.veil (p : Parameter) : Parameter :=
  ⟨p.name.veil, p.type.map Ty.veil⟩

def MapShape.veil (m : MapShape) : MapShape :=
  ⟨m.word, {}, m.name.veil, m.key.veil, m.value.veil⟩

def Literal.veil (keep : Bool) : Literal → Literal
  | string s => string (s.veil keep)
  | v => v

variable (keep : Bool) {e : Expr} {p : Pos}

mutual

def Expr.veil : Expr → Expr
  | .ident n => .ident n.veil
  | .literal _ _ v => .literal [] {} (v.veil keep)
  | .principal _ address => .principal {} address
  | .noneLit _ => .noneLit {}
  | .someOf _ e => .someOf {} e.veil
  | .list _ es => .list {} (Expr.veilAll es)
  | .tuple _ fields => .tuple {} (Expr.veilFields fields)
  | .binary _ op l r => .binary {} op l.veil r.veil
  | .unary _ op e => .unary {} op e.veil
  | .conditional _ c t e => .conditional {} c.veil t.veil e.veil
  | .member _ e property => .member {} e.veil property.veil
  | .call _ f args => .call {} f.veil (Expr.veilAll args)
  | .contractCall _ contract function args =>
    .contractCall {} contract.veil function (Expr.veilAll args)
  | .assetCall _ asset function args => .assetCall {} asset.veil function (Expr.veilAll args)
  | .map _ l f => .map {} l.veil f.veil
  | .filter _ l f => .filter {} l.veil f.veil
  | .fold _ l i f => .fold {} l.veil i.veil f.veil
  | .comprehension _ e x l none => .comprehension {} e.veil x.veil l.veil none
  | .comprehension _ e x l (some c) => .comprehension {} e.veil x.veil l.veil (some c.veil)
  | .lambda _ ps body => .lambda {} (ps.map Parameter.veil) body.veil
  | .typeCheck _ e t => .typeCheck {} e.veil t.veil
  | .cast _ e t => .cast {} e.veil t.veil

def Expr.veilAll : List Expr → List Expr
  | [] => []
  | e :: es => e.veil :: Expr.veilAll es

def Expr.veilFields : List (Bytes × Expr) → List (Bytes × Expr)
  | [] => []
  | (key, e) :: fields => (key.veil keep, e.veil) :: Expr.veilFields fields

def Body.veil : Body → Body
  | .expr e => .expr e.veil
  | .block b => .block b.veil

def Block.veil : Block → Block
  | .mk _ ss => .mk {} (Stmt.veilAll ss)

def Stmt.veil : Stmt → Stmt
  | .fnDecl f => .fnDecl f.veil
  | .letDecl _ n t e => .letDecl {} n.veil (t.map Ty.veil) e.veil
  | .constDecl _ n t e => .constDecl {} n.veil (t.map Ty.veil) e.veil
  | .mapConst _ ds n t none m =>
    .mapConst {} (Decorator.veilAll ds) n.veil (t.map Ty.veil) none m.veil
  | .mapConst _ ds n t (some e) m =>
    .mapConst {} (Decorator.veilAll ds) n.veil (t.map Ty.veil) (some e.veil) m.veil
  | .mapDecl m => .mapDecl m.veil
  | .assetDecl _ n fields => .assetDecl {} n.veil (fields.map Parameter.veil)
  | .traitDecl _ n fs => .traitDecl {} n.veil (Fn.veilAll fs)
  | .ifStmt _ c b rest => .ifStmt {} c.veil b.veil rest.veil
  | .tryStmt _ b n h => .tryStmt {} b.veil n.veil h.veil
  | .throwStmt _ e => .throwStmt {} e.veil
  | .returnStmt _ none => .returnStmt {} none
  | .returnStmt _ (some e) => .returnStmt {} (some e.veil)
  | .exprStmt _ e => .exprStmt {} e.veil
  | .importDecl _ names source => .importDecl {} (names.map Ident.veil) (source.veil keep)
  | .exportDecl _ s => .exportDecl {} s.veil

def Stmt.veilAll : List Stmt → List Stmt
  | [] => []
  | s :: ss => s.veil :: Stmt.veilAll ss

def Else.veil : Else → Else
  | .absent => .absent
  | .final b => .final b.veil
  | .elseIf c b rest => .elseIf c.veil b.veil rest.veil

def Fn.veil : Fn → Fn
  | .mk _ ds n ps r none =>
    .mk {} (Decorator.veilAll ds) n.veil (ps.map Parameter.veil) (r.map Ty.veil) none
  | .mk _ ds n ps r (some b) =>
    .mk {} (Decorator.veilAll ds) n.veil (ps.map Parameter.veil) (r.map Ty.veil) (some b.veil)

def Fn.veilAll : List Fn → List Fn
  | [] => []
  | f :: fs => f.veil :: Fn.veilAll fs

def Decorator.veil : Decorator → Decorator
  | .mk _ name none => .mk {} name none
  | .mk _ name (some n) => .mk {} name (some n.veil)

def Decorator.veilAll : List Decorator → List Decorator
  | [] => []
  | d :: ds => d.veil :: Decorator.veilAll ds

def Node.veil : Node → Node
  | .expr e => .expr e.veil
  | .type t => .type t.veil
  | .parameter p => .parameter p.veil
  | .block b => .block b.veil
  | .stmt s => .stmt s.veil
  | .program ss => .program (Stmt.veilAll ss)

end

/-! ### Lists -/

theorem Ty.veilFields_eq_map (fields : List (Bytes × Ty)) :
    veilFields fields = fields.map fun f => (f.1, f.2.veil) := by
  induction fields with
  | nil => rfl
  | cons f fields ih => rw [veilFields, ih, map_cons]

theorem Expr.veilAll_eq_map (es : List Expr) : veilAll keep es = es.map (veil keep) := by
  induction es with
  | nil => rw [veilAll, map_nil]
  | cons e es ih => rw [veilAll, ih, map_cons]

theorem Expr.veilFields_eq_map (fields : List (Bytes × Expr)) :
    veilFields keep fields = fields.map fun f => (f.1.veil keep, f.2.veil keep) := by
  induction fields with
  | nil => rw [veilFields, map_nil]
  | cons f fields ih => rw [veilFields, ih, map_cons]

theorem Stmt.veilAll_eq_map (ss : List Stmt) : veilAll keep ss = ss.map (veil keep) := by
  induction ss with
  | nil => rw [veilAll, map_nil]
  | cons s ss ih => rw [veilAll, ih, map_cons]

theorem Fn.veilAll_eq_map (fs : List Fn) : veilAll keep fs = fs.map (veil keep) := by
  induction fs with
  | nil => rw [veilAll, map_nil]
  | cons f fs ih => rw [veilAll, ih, map_cons]

theorem Decorator.veilAll_eq_map (ds : List Decorator) : veilAll keep ds = ds.map (veil keep) := by
  induction ds with
  | nil => rw [veilAll, map_nil]
  | cons d ds ih => rw [veilAll, ih, map_cons]

/-! ### Optional parts -/

theorem Expr.veil_comprehension (p : Pos) (e : Expr) (x : Ident) (l : Expr) (c : Option Expr) :
    veil keep (.comprehension p e x l c) =
      .comprehension {} (e.veil keep) x.veil (l.veil keep) (c.map (veil keep)) := by
  cases c <;> simp only [veil, Option.map]

theorem Stmt.veil_mapConst (p : Pos) (ds : List Decorator) (n : Ident) (t : Option Ty)
    (e : Option Expr) (m : MapShape) :
    veil keep (.mapConst p ds n t e m) =
      .mapConst {} (ds.map (Decorator.veil keep)) n.veil (t.map Ty.veil) (e.map (Expr.veil keep))
        m.veil := by
  cases e <;> simp only [veil, Option.map, Decorator.veilAll_eq_map]

theorem Stmt.veil_returnStmt (p : Pos) (e : Option Expr) :
    veil keep (.returnStmt p e) = .returnStmt {} (e.map (Expr.veil keep)) := by
  cases e <;> simp only [veil, Option.map]

theorem Fn.veil_mk (p : Pos) (ds : List Decorator) (n : Ident) (ps : List Parameter)
    (r : Option Ty) (b : Option Block) :
    veil keep (.mk p ds n ps r b) =
      .mk {} (ds.map (Decorator.veil keep)) n.veil (ps.map Parameter.veil) (r.map Ty.veil)
        (b.map (Block.veil keep)) := by
  cases b <;> simp only [veil, Option.map, Decorator.veilAll_eq_map]

theorem Decorator.veil_mk (p : Pos) (name : Bytes) (n : Option Node) :
    veil keep (.mk p name n) = .mk {} name (n.map (Node.veil keep)) := by
  cases n <;> simp only [veil, Option.map]

/-! ### What a veil shows -/

variable {keep}

theorem Expr.eq_ident_of_veil (h : e.veil keep = .ident n) : ∃ m, e = .ident m := by
  cases e <;> simp only [veil, veil_comprehension, reduceCtorEq] at h
  exact ⟨_, rfl⟩

theorem Expr.eq_literal_of_veil (h : e.veil keep = .literal first p v) :
    ∃ first' p' v', e = .literal first' p' v' ∧ v'.veil keep = v := by
  cases e <;> simp only [veil, veil_comprehension, reduceCtorEq, literal.injEq] at h
  exact ⟨_, _, _, rfl, h.2.2⟩

theorem Expr.eq_int_of_veil (h : e.veil keep = .literal first p (.int v)) :
    ∃ first' p', e = .literal first' p' (.int v) := by
  obtain ⟨first', p', w, rfl, hw⟩ := eq_literal_of_veil h
  cases w <;> simp only [Literal.veil, reduceCtorEq, Literal.int.injEq] at hw
  exact ⟨_, _, by rw [hw]⟩

theorem Expr.eq_float_of_veil (h : e.veil keep = .literal first p (.float v)) :
    ∃ first' p', e = .literal first' p' (.float v) := by
  obtain ⟨first', p', w, rfl, hw⟩ := eq_literal_of_veil h
  cases w <;> simp only [Literal.veil, reduceCtorEq, Literal.float.injEq] at hw
  exact ⟨_, _, by rw [hw]⟩

theorem Expr.eq_string_of_veil (h : e.veil keep = .literal first p (.string s)) :
    ∃ first' p' s', e = .literal first' p' (.string s') ∧ s'.veil keep = s := by
  obtain ⟨first', p', w, rfl, hw⟩ := eq_literal_of_veil h
  cases w <;> simp only [Literal.veil, reduceCtorEq, Literal.string.injEq] at hw
  exact ⟨_, _, _, rfl, hw⟩

theorem Node.eq_type_of_veil {n : Node} (h : n.veil keep = .type t) :
    ∃ u, n = .type u ∧ u.veil = t := by
  cases n <;> simp only [veil, reduceCtorEq, type.injEq] at h
  exact ⟨_, rfl, h⟩

theorem Stmt.eq_fnDecl_of_veil {s : Stmt} (h : s.veil keep = .fnDecl f) : ∃ g, s = .fnDecl g := by
  cases s <;>
    simp only [veil, veil_mapConst, veil_returnStmt, reduceCtorEq] at h
  exact ⟨_, rfl⟩

end Covenant
