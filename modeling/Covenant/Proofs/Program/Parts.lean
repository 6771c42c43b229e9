import Covenant.Program.Basic
import Mathlib.Logic.Relation

/-!
# Parts of a program

A part of a program is an expression, type, parameter, block or statement anywhere in it; every name
counts as an expression.
-/

namespace Covenant

/-! ### Parts right below -/

def Ident.node (n : Ident) : Node :=
  .expr (.ident n)

def Ty.optionalNode (t : Option Ty) : List Node :=
  t.toList.map .type

def MapShape.children (m : MapShape) : List Node :=
  [m.name.node, .type m.key, .type m.value]

def Body.node : Body → Node
  | .expr e => .expr e
  | .block b => .block b

def Else.children : Else → List Node
  | .absent => []
  | .final b => [.block b]
  | .elseIf c b rest => .expr c :: .block b :: rest.children

theorem Else.induction_branches {motive : Else → Prop} (absent : motive .absent)
    (final : ∀ b, motive (.final b))
    (elseIf : ∀ c b rest, motive rest → motive (.elseIf c b rest)) : ∀ e, motive e
  | .absent => absent
  | .final b => final b
  | .elseIf c b rest => elseIf c b rest (induction_branches absent final elseIf rest)

def Decorator.children (ds : List Decorator) : List Node :=
  ds.filterMap Decorator.argument

def Fn.children (f : Fn) : List Node :=
  Decorator.children f.decorators ++ f.name.node :: f.params.map .parameter ++
    Ty.optionalNode f.result ++ f.body.toList.map .block

def Ty.children : Ty → List Node
  | .named n => [n.node]
  | .list _ t => [.type t]
  | .tuple _ fields => fields.map fun f => .type f.2
  | .optional _ t => [.type t]
  | .response _ ok err => [.type ok, .type err]

def Expr.children : Expr → List Node
  | .ident _ | .literal .. | .principal .. | .noneLit _ => []
  | .someOf _ e => [.expr e]
  | .list _ es => es.map .expr
  | .tuple _ fields => fields.map fun f => .expr f.2
  | .binary _ _ l r => [.expr l, .expr r]
  | .unary _ _ e => [.expr e]
  | .conditional _ c t e => [.expr c, .expr t, .expr e]
  | .member _ e property => [.expr e, property.node]
  | .call _ f args => .expr f :: args.map .expr
  | .contractCall _ contract _ args => contract.node :: args.map .expr
  | .assetCall _ asset _ args => asset.node :: args.map .expr
  | .map _ l f => [.expr l, .expr f]
  | .filter _ l f => [.expr l, .expr f]
  | .fold _ l i f => [.expr l, .expr i, .expr f]
  | .comprehension _ e x l c => .expr e :: x.node :: .expr l :: c.toList.map .expr
  | .lambda _ ps body => ps.map .parameter ++ [body.node]
  | .typeCheck _ e t => [.expr e, .type t]
  | .cast _ e t => [.expr e, .type t]

def Stmt.children : Stmt → List Node
  | .fnDecl f => f.children
  | .letDecl _ n t e => n.node :: Ty.optionalNode t ++ [.expr e]
  | .constDecl _ n t e => n.node :: Ty.optionalNode t ++ [.expr e]
  | .mapConst _ ds n t e m =>
    Decorator.children ds ++ n.node :: Ty.optionalNode t ++ e.toList.map .expr ++ m.children
  | .mapDecl m => m.children
  | .assetDecl _ n fields => n.node :: fields.map .parameter
  | .traitDecl _ n fs => n.node :: fs.map fun f => .stmt (.fnDecl f)
  | .ifStmt _ c b rest => .expr c :: .block b :: rest.children
  | .tryStmt _ b n h => [.block b, n.node, .block h]
  | .throwStmt _ e => [.expr e]
  | .returnStmt _ e => e.toList.map .expr
  | .exprStmt _ e => [.expr e]
  | .importDecl _ names _ => names.map Ident.node
  | .exportDecl _ s => [.stmt s]

theorem Fn.of_forall_children {f : Fn} {P : Node → Prop} (h : ∀ n ∈ f.children, P n) :
    P f.name.node ∧ (∀ p ∈ f.params, P (.parameter p)) ∧
      (∀ n ∈ Ty.optionalNode f.result, P n) ∧ ∀ b, f.body = some b → P (.block b) := by
  simp only [children, List.forall_mem_append, List.forall_mem_cons, List.forall_mem_map] at h
  obtain ⟨⟨⟨-, hname, hparams⟩, hresult⟩, hbody⟩ := h
  exact ⟨hname, hparams, hresult, fun b hb => hbody b (by rw [hb]; exact .head _)⟩

namespace Node

def children : Node → List Node
  | .expr e => e.children
  | .type t => t.children
  | .parameter p => p.name.node :: Ty.optionalNode p.type
  | .block b => b.statements.map .stmt
  | .stmt s => s.children
  | .program ss => ss.map .stmt

/-! ### Parts at any depth -/

def Contains (m n : Node) : Prop :=
  Relation.ReflTransGen (fun a b => b ∈ a.children) m n

def All (P : Node → Prop) (m : Node) : Prop :=
  ∀ n, m.Contains n → P n

variable {m n : Node}

theorem all_iff : m.All P ↔ P m ∧ ∀ c ∈ m.children, c.All P := by
  constructor
  · intro h
    exact ⟨h m .refl, fun c hc n hn => h n (.head hc hn)⟩
  · rintro ⟨hm, hchildren⟩ n hn
    obtain rfl | ⟨c, hc, hcn⟩ := hn.cases_head
    · exact hm
    · exact hchildren c hc n hcn

theorem All.self (h : m.All P) : P m :=
  (all_iff.1 h).1

theorem All.below (h : m.All P) : ∀ c ∈ m.children, c.All P :=
  (all_iff.1 h).2

theorem All.of_contains (h : m.All P) (hn : m.Contains n) : n.All P :=
  fun k hk => h k (hn.trans hk)

theorem All.imp (h : m.All P) (hPQ : ∀ n, P n → Q n) : m.All Q :=
  fun n hn => hPQ n (h n hn)

theorem All.and (hP : m.All P) (hQ : m.All Q) : m.All fun n => P n ∧ Q n :=
  fun n hn => ⟨hP n hn, hQ n hn⟩

end Node

end Covenant
