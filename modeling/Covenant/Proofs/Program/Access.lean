import Covenant.Clarity.Scope
import Covenant.Proofs.Program.Parts

/-!
# Member accesses on local names

A name is *local* when a function, a function value, a comprehension, a `catch` or an earlier
declaration of the same block binds it.  A member of a local name that is read and not called can be
written as a call of `get`.  The accesses that are spelled like one of the three values of the chain
are set apart.
-/

namespace Covenant

open List

/-! ### Accesses -/

/-- A member of a name. -/
structure Access where
  object : Ident
  property : Ident

def ChainValue.path : ChainValue → Bytes
  | txSender => "tx.sender"
  | contractCaller => "contract.caller"
  | blockHeight => "block.height"

namespace Access

variable (a : Access)

def path : Bytes :=
  a.object.name ++ "." ++ a.property.name

def chainValue? : Option ChainValue :=
  ChainValue.of? a.object.name a.property.name

def isChain : Bool :=
  a.chainValue?.isSome

def expr (p : Pos) : Expr :=
  .member p (.ident a.object) a.property

def getter : Expr :=
  .call {} (.ident ⟨"get", {}⟩) [.ident a.property, .ident a.object]

def getterText : Bytes :=
  "(get " ++ a.property.name ++ " " ++ a.object.name ++ ")"

def of? (names : List Bytes) (object : Expr) (property : Ident) : Option Access :=
  match object with
  | .ident n => if names.contains n.name then some ⟨n, property⟩ else none
  | _ => none

end Access

/-- The name that a declaration binds for the statements after it. -/
def Stmt.bound : Stmt → List Bytes
  | .letDecl _ n _ _ | .constDecl _ n _ _ | .mapConst _ _ n _ _ _ => [n.name]
  | .exportDecl _ s => s.bound
  | _ => []

def Parameter.names (ps : List Parameter) : List Bytes :=
  ps.map fun p => p.name.name

mutual

/-- The members of the names in an expression that are read without a call.  In a call of a member
that member does not count. -/
def Expr.accesses (names : List Bytes) : Expr → List Access
  | .ident _ | .literal .. | .principal .. | .noneLit _ => []
  | .someOf _ e | .unary _ _ e | .typeCheck _ e _ | .cast _ e _ => Expr.accesses names e
  | .list _ es | .contractCall _ _ _ es | .assetCall _ _ _ es => Expr.accessesAll names es
  | .tuple _ fields => Expr.accessesFields names fields
  | .binary _ _ l r => Expr.accesses names l ++ Expr.accesses names r
  | .conditional _ c t e => Expr.accesses names c ++ Expr.accesses names t ++ Expr.accesses names e
  | .member _ e property => (Access.of? names e property).toList ++ Expr.accesses names e
  -- the member is called, but what it belongs to may itself be read
  | .call _ (.member _ e _) args => Expr.accesses names e ++ Expr.accessesAll names args
  | .call _ f args => Expr.accesses names f ++ Expr.accessesAll names args
  | .map _ l f | .filter _ l f => Expr.accesses names l ++ Expr.accesses names f
  | .fold _ l i f => Expr.accesses names l ++ Expr.accesses names i ++ Expr.accesses names f
  | .comprehension _ e x l none => Expr.accesses names l ++ Expr.accesses (x.name :: names) e
  | .comprehension _ e x l (some c) =>
    Expr.accesses names l ++ Expr.accesses (x.name :: names) c ++ Expr.accesses (x.name :: names) e
  | .lambda _ ps body => Body.accesses (Parameter.names ps ++ names) body

def Expr.accessesAll (names : List Bytes) : List Expr → List Access
  | [] => []
  | e :: es => Expr.accesses names e ++ Expr.accessesAll names es

def Expr.accessesFields (names : List Bytes) : List (Bytes × Expr) → List Access
  | [] => []
  | (_, e) :: fields => Expr.accesses names e ++ Expr.accessesFields names fields

def Body.accesses (names : List Bytes) : Body → List Access
  | .expr e => Expr.accesses names e
  | .block b => Block.accesses names b

def Block.accesses (names : List Bytes) : Block → List Access
  | .mk _ ss => Stmt.accessesAll names ss

/-- The accesses in statements, of which each binds its names for those after it. -/
def Stmt.accessesAll (names : List Bytes) : List Stmt → List Access
  | [] => []
  | s :: ss => Stmt.accesses names s ++ Stmt.accessesAll (s.bound ++ names) ss

/-- The accesses in a statement.  The value of a constant that declares a map, signatures and
decorators are no code. -/
def Stmt.accesses (names : List Bytes) : Stmt → List Access
  | .fnDecl f => Fn.accesses names f
  | .letDecl _ _ _ e | .constDecl _ _ _ e | .throwStmt _ e | .exprStmt _ e
  | .returnStmt _ (some e) => Expr.accesses names e
  | .ifStmt _ c b rest => Expr.accesses names c ++ Block.accesses names b ++
      Else.accesses names rest
  | .tryStmt _ b n h => Block.accesses names b ++ Block.accesses (n.name :: names) h
  | .exportDecl _ s => Stmt.accesses names s
  | _ => []

def Else.accesses (names : List Bytes) : Else → List Access
  | .absent => []
  | .final b => Block.accesses names b
  | .elseIf c b rest => Expr.accesses names c ++ Block.accesses names b ++ Else.accesses names rest

def Fn.accesses (names : List Bytes) : Fn → List Access
  | .mk _ _ _ ps _ (some b) => Block.accesses (Parameter.names ps ++ names) b
  | .mk _ _ _ _ _ none => []

end

mutual

/-- The expression with the call of `get` in the place of every access to a member of the names,
unless it is spelled like a value of the chain. -/
def Expr.explicit (names : List Bytes) : Expr → Expr
  | .someOf p e => .someOf p (Expr.explicit names e)
  | .list p es => .list p (Expr.explicitAll names es)
  | .tuple p fields => .tuple p (Expr.explicitFields names fields)
  | .binary p op l r => .binary p op (Expr.explicit names l) (Expr.explicit names r)
  | .unary p op e => .unary p op (Expr.explicit names e)
  | .conditional p c t e =>
    .conditional p (Expr.explicit names c) (Expr.explicit names t) (Expr.explicit names e)
  | .member p e property =>
    match (Access.of? names e property).filter (!·.isChain) with
    | some a => a.getter
    | none => .member p (Expr.explicit names e) property
  | .call p (.member q e property) args =>
    .call p (.member q (Expr.explicit names e) property) (Expr.explicitAll names args)
  | .call p f args => .call p (Expr.explicit names f) (Expr.explicitAll names args)
  | .contractCall p contract function args =>
    .contractCall p contract function (Expr.explicitAll names args)
  | .assetCall p asset function args => .assetCall p asset function (Expr.explicitAll names args)
  | .map p l f => .map p (Expr.explicit names l) (Expr.explicit names f)
  | .filter p l f => .filter p (Expr.explicit names l) (Expr.explicit names f)
  | .fold p l i f => .fold p (Expr.explicit names l) (Expr.explicit names i) (Expr.explicit names f)
  | .comprehension p e x l none =>
    .comprehension p (Expr.explicit (x.name :: names) e) x (Expr.explicit names l) none
  | .comprehension p e x l (some c) =>
    .comprehension p (Expr.explicit (x.name :: names) e) x (Expr.explicit names l)
      (some (Expr.explicit (x.name :: names) c))
  | .lambda p ps body => .lambda p ps (Body.explicit (Parameter.names ps ++ names) body)
  | .typeCheck p e t => .typeCheck p (Expr.explicit names e) t
  | .cast p e t => .cast p (Expr.explicit names e) t
  | .ident n => .ident n
  | .literal first p v => .literal first p v
  | .principal p address => .principal p address
  | .noneLit p => .noneLit p

def Expr.explicitAll (names : List Bytes) : List Expr → List Expr
  | [] => []
  | e :: es => Expr.explicit names e :: Expr.explicitAll names es

def Expr.explicitFields (names : List Bytes) : List (Bytes × Expr) → List (Bytes × Expr)
  | [] => []
  | (key, e) :: fields => (key, Expr.explicit names e) :: Expr.explicitFields names fields

def Body.explicit (names : List Bytes) : Body → Body
  | .expr e => .expr (Expr.explicit names e)
  | .block b => .block (Block.explicit names b)

def Block.explicit (names : List Bytes) : Block → Block
  | .mk p ss => .mk p (Stmt.explicitAll names ss)

def Stmt.explicitAll (names : List Bytes) : List Stmt → List Stmt
  | [] => []
  | s :: ss => Stmt.explicit names s :: Stmt.explicitAll (s.bound ++ names) ss

def Stmt.explicit (names : List Bytes) : Stmt → Stmt
  | .fnDecl f => .fnDecl (Fn.explicit names f)
  | .letDecl p n t e => .letDecl p n t (Expr.explicit names e)
  | .constDecl p n t e => .constDecl p n t (Expr.explicit names e)
  | .ifStmt p c b rest =>
    .ifStmt p (Expr.explicit names c) (Block.explicit names b) (Else.explicit names rest)
  | .tryStmt p b n h => .tryStmt p (Block.explicit names b) n (Block.explicit (n.name :: names) h)
  | .throwStmt p e => .throwStmt p (Expr.explicit names e)
  | .returnStmt p (some e) => .returnStmt p (some (Expr.explicit names e))
  | .returnStmt p none => .returnStmt p none
  | .exprStmt p e => .exprStmt p (Expr.explicit names e)
  | .exportDecl p s => .exportDecl p (Stmt.explicit names s)
  | .mapConst p ds n t e m => .mapConst p ds n t e m
  | .mapDecl m => .mapDecl m
  | .assetDecl p n fields => .assetDecl p n fields
  | .traitDecl p n fs => .traitDecl p n fs
  | .importDecl p ns source => .importDecl p ns source

def Else.explicit (names : List Bytes) : Else → Else
  | .absent => .absent
  | .final b => .final (Block.explicit names b)
  | .elseIf c b rest =>
    .elseIf (Expr.explicit names c) (Block.explicit names b) (Else.explicit names rest)

def Fn.explicit (names : List Bytes) : Fn → Fn
  | .mk p ds n ps r (some b) =>
    .mk p ds n ps r (some (Block.explicit (Parameter.names ps ++ names) b))
  | .mk p ds n ps r none => .mk p ds n ps r none

end

example (names : List Bytes) (p : Pos) (e : Expr) :
    (Expr.someOf p e).explicit names = .someOf p (e.explicit names) := by
  rw [Expr.explicit]

example (names : List Bytes) (p : Pos) (e : Expr) :
    (Stmt.exprStmt p e).explicit names = .exprStmt p (e.explicit names) := by
  rw [Stmt.explicit]

/-- The accesses to members of local names that are rendered.  Nothing is local outside of
functions, comprehensions and `catch`. -/
def Program.accesses (p : Program) : List Access :=
  p.statements.flatMap (Stmt.accesses [])

def Program.explicit (p : Program) : Program :=
  ⟨p.statements.map (Stmt.explicit [])⟩

variable {property : Ident} {f : Expr}

theorem Access.eq_of_of?_eq_some (h : of? names e property = some a) :
    e = .ident a.object ∧ property = a.property := by
  cases e with
  | ident n =>
    simp only [of?] at h
    split at h
    · cases h
      exact ⟨rfl, rfl⟩
    · cases h
  | _ => simp [of?] at h

/-! ### Shapes of replaced expressions -/

def Expr.explicitCallee (names : List Bytes) : Expr → Expr
  | .member p e property => .member p (e.explicit names) property
  | e => e.explicit names

theorem Expr.explicit_call (p : Pos) (f : Expr) (args : List Expr) :
    (call p f args).explicit names =
      .call p (f.explicitCallee names) (explicitAll names args) := by
  cases f <;> simp only [explicit, explicitCallee]

theorem Expr.explicitCallee_of_ne (h : ∀ p e n, f ≠ .member p e n) :
    f.explicitCallee names = f.explicit names := by
  rw [explicitCallee]
  exact h

theorem Expr.explicit_comprehension (p : Pos) (e : Expr) (x : Ident) (l : Expr) (c : Option Expr) :
    (comprehension p e x l c).explicit names =
      .comprehension p (e.explicit (x.name :: names)) x (l.explicit names)
        (c.map (explicit (x.name :: names))) := by
  cases c <;> simp only [explicit, Option.map_none, Option.map_some]

theorem Expr.explicit_ne_member (h : ∀ p e n, f ≠ .member p e n) :
    ∀ p e n, f.explicit names ≠ .member p e n := by
  intro p e n
  cases f with
  | member q e' n' => exact absurd rfl (h q e' n')
  | _ => simp [explicit, explicit_call, explicit_comprehension]

theorem Expr.explicit_member_cases (names : List Bytes) (p : Pos) (e : Expr) (property : Ident) :
    (∃ a : Access, e = .ident a.object ∧ property = a.property ∧ a.chainValue? = none ∧
      Access.of? names e property = some a ∧ (member p e property).explicit names = a.getter) ∨
    ((∀ a ∈ Access.of? names e property, a.isChain = true) ∧
      (member p e property).explicit names = .member p (e.explicit names) property) := by
  rw [explicit]
  cases ha : Access.of? names e property with
  | none => exact .inr ⟨by simp, rfl⟩
  | some a =>
    obtain ⟨hobject, hproperty⟩ := Access.eq_of_of?_eq_some ha
    cases hchain : a.chainValue? with
    | none => exact .inl ⟨a, hobject, hproperty, hchain, rfl,
        by simp [Option.filter, Access.isChain, hchain]⟩
    | some c =>
      exact .inr ⟨by simp [Access.isChain, hchain], by simp [Option.filter, Access.isChain, hchain]⟩

theorem Expr.explicit_member_congr {α : Type} (f : Expr → α) {y : α} {e : Expr}
    (hmember : ∀ e, f (.member p e property) = y) (hgetter : ∀ a : Access, f a.getter = y) :
    f ((member p e property).explicit names) = f (.member p e property) := by
  obtain ⟨a, -, -, -, -, h⟩ | ⟨-, h⟩ := explicit_member_cases names p e property
  · rw [h, hgetter, hmember]
  · rw [h, hmember, hmember]

theorem Access.of?_explicit (e : Expr) (property : Ident) :
    of? names (e.explicit names) property = of? names e property := by
  cases e with
  | member p e f =>
    exact Expr.explicit_member_congr (of? names · property) (fun _ => rfl) fun _ => rfl
  | _ => simp only [Expr.explicit, Expr.explicit_call, Expr.explicit_comprehension, of?]

theorem Stmt.bound_explicit : ∀ s : Stmt, (s.explicit names).bound = s.bound
  | .exportDecl _ s => by rw [explicit, bound, bound, bound_explicit s]
  | .returnStmt _ e => by cases e <;> simp only [explicit, bound]
  | .fnDecl _ | .letDecl .. | .constDecl .. | .ifStmt .. | .tryStmt .. | .throwStmt .. |
      .exprStmt ..
  | .mapConst .. | .mapDecl _ | .assetDecl .. | .traitDecl .. | .importDecl .. => by
    simp only [explicit, bound]

/-! ### Remaining accesses -/

theorem Access.accesses_getter (a : Access) (names : List Bytes) :
    a.getter.accesses names = [] := by
  simp [getter, Expr.accesses, Expr.accessesAll]

theorem Expr.accesses_call (hne : ∀ q e n, f ≠ .member q e n) :
    (call p f args).accesses names = f.accesses names ++ accessesAll names args := by
  cases f with
  | member q e n => exact absurd rfl (hne q e n)
  | _ => simp only [accesses]

theorem Expr.accesses_call_explicit (hne : ∀ q e n, f ≠ .member q e n)
    (hf : (f.explicit names).accesses names = (f.accesses names).filter Access.isChain)
    (hargs : accessesAll names (explicitAll names args) =
      (accessesAll names args).filter Access.isChain) :
    ((call p f args).explicit names).accesses names =
      ((call p f args).accesses names).filter Access.isChain := by
  rw [explicit_call, explicitCallee_of_ne hne,
    accesses_call (explicit_ne_member hne), accesses_call hne, hf, hargs,
    filter_append]

mutual

/-- **Only accesses that are spelled like values of the chain remain.** -/
theorem Expr.accesses_explicit (names : List Bytes) :
    ∀ e : Expr, (e.explicit names).accesses names =
      (e.accesses names).filter Access.isChain
  | .ident _ | .literal .. | .principal .. | .noneLit _ => by
    simp [Expr.explicit, Expr.accesses]
  | .someOf _ e | .unary _ _ e | .typeCheck _ e _ | .cast _ e _ => by
    simp only [Expr.explicit, Expr.accesses, e.accesses_explicit names]
  | .list _ es | .contractCall _ _ _ es | .assetCall _ _ _ es => by
    simp only [Expr.explicit, Expr.accesses, Expr.accessesAll_explicit names es]
  | .tuple _ fields => by
    simp only [Expr.explicit, Expr.accesses, Expr.accessesFields_explicit names fields]
  | .binary _ _ l r | .map _ l r | .filter _ l r => by
    simp [Expr.explicit, Expr.accesses, l.accesses_explicit names, r.accesses_explicit names]
  | .conditional _ c t e | .fold _ c t e => by
    simp [Expr.explicit, Expr.accesses, c.accesses_explicit names,
      t.accesses_explicit names, e.accesses_explicit names]
  | .member p e property => by
    have he := Expr.accesses_explicit names e
    obtain ⟨a, rfl, rfl, hchain, ha, h⟩ | ⟨hchain, h⟩ :=
      Expr.explicit_member_cases names p e property
    · -- the call of `get` holds no access
      rw [h, a.accesses_getter, Expr.accesses, ha]
      simp [Expr.accesses, Access.isChain, hchain]
    · -- the name is not local, or the filter keeps the access
      rw [h, Expr.accesses, Expr.accesses, he, Access.of?_explicit, filter_append]
      congr 1
      cases ha : Access.of? names e property with
      | none => rfl
      | some a => simp [hchain a ha]
  | .call _ f args => by
    have hf := Expr.accesses_explicit names f
    have hargs := Expr.accessesAll_explicit names args
    cases f with
    | member _ e _ =>
      simp [Expr.explicit, Expr.accesses, e.accesses_explicit names, hargs]
    | _ => exact Expr.accesses_call_explicit (by simp) hf hargs
  | .comprehension _ e x l none => by
    simp [Expr.explicit, Expr.accesses, l.accesses_explicit names,
      Expr.accesses_explicit (x.name :: names) e]
  | .comprehension _ e x l (some c) => by
    simp [Expr.explicit, Expr.accesses, l.accesses_explicit names,
      Expr.accesses_explicit (x.name :: names) e, Expr.accesses_explicit (x.name :: names) c]
  | .lambda _ ps body => by simp only [Expr.explicit, Expr.accesses, body.accesses_explicit _]

theorem Expr.accessesAll_explicit (names : List Bytes) :
    ∀ es : List Expr, Expr.accessesAll names (Expr.explicitAll names es) =
      (Expr.accessesAll names es).filter Access.isChain
  | [] => by simp [Expr.explicitAll, Expr.accessesAll]
  | e :: es => by
    rw [Expr.explicitAll, Expr.accessesAll, Expr.accessesAll, e.accesses_explicit names,
      Expr.accessesAll_explicit names es, filter_append]

theorem Expr.accessesFields_explicit (names : List Bytes) : ∀ fields : List (Bytes × Expr),
      Expr.accessesFields names (Expr.explicitFields names fields) =
        (Expr.accessesFields names fields).filter Access.isChain
  | [] => by simp [Expr.explicitFields, Expr.accessesFields]
  | (_, e) :: fields => by
    rw [Expr.explicitFields, Expr.accessesFields, Expr.accessesFields,
      e.accesses_explicit names, Expr.accessesFields_explicit names fields, filter_append]

theorem Body.accesses_explicit (names : List Bytes) :
    ∀ b : Body, (b.explicit names).accesses names =
      (b.accesses names).filter Access.isChain
  | .expr e => by rw [Body.explicit, Body.accesses, Body.accesses, e.accesses_explicit names]
  | .block b => by rw [Body.explicit, Body.accesses, Body.accesses, b.accesses_explicit names]

theorem Block.accesses_explicit (names : List Bytes) :
    ∀ b : Block, (b.explicit names).accesses names =
      (b.accesses names).filter Access.isChain
  | .mk _ ss => by
    rw [Block.explicit, Block.accesses, Block.accesses, Stmt.accessesAll_explicit names ss]

theorem Stmt.accessesAll_explicit (names : List Bytes) :
    ∀ ss : List Stmt, Stmt.accessesAll names (Stmt.explicitAll names ss) =
      (Stmt.accessesAll names ss).filter Access.isChain
  | [] => by simp [Stmt.explicitAll, Stmt.accessesAll]
  | s :: ss => by
    rw [Stmt.explicitAll, Stmt.accessesAll, Stmt.accessesAll, Stmt.bound_explicit,
      s.accesses_explicit names, Stmt.accessesAll_explicit (s.bound ++ names) ss,
      filter_append]

theorem Stmt.accesses_explicit (names : List Bytes) :
    ∀ s : Stmt, (s.explicit names).accesses names =
      (s.accesses names).filter Access.isChain
  | .fnDecl f => by rw [Stmt.explicit, Stmt.accesses, Stmt.accesses, f.accesses_explicit names]
  | .letDecl _ _ _ e | .constDecl _ _ _ e | .throwStmt _ e | .exprStmt _ e
  | .returnStmt _ (some e) => by
    rw [Stmt.explicit, Stmt.accesses, Stmt.accesses, e.accesses_explicit names]
  | .ifStmt _ c b rest => by
    rw [Stmt.explicit, Stmt.accesses, Stmt.accesses, c.accesses_explicit names,
      b.accesses_explicit names, rest.accesses_explicit names, filter_append,
      filter_append]
  | .tryStmt _ b n h => by
    rw [Stmt.explicit, Stmt.accesses, Stmt.accesses, b.accesses_explicit names,
      Block.accesses_explicit (n.name :: names) h, filter_append]
  | .exportDecl _ s => by
    rw [Stmt.explicit, Stmt.accesses, Stmt.accesses, s.accesses_explicit names]
  | .returnStmt _ none | .mapConst .. | .mapDecl _ | .assetDecl .. | .traitDecl ..
  | .importDecl .. => by simp only [Stmt.explicit, Stmt.accesses, filter_nil]

theorem Else.accesses_explicit (names : List Bytes) :
    ∀ e : Else, (e.explicit names).accesses names =
      (e.accesses names).filter Access.isChain
  | .absent => by simp [Else.explicit, Else.accesses]
  | .final b => by rw [Else.explicit, Else.accesses, Else.accesses, b.accesses_explicit names]
  | .elseIf c b rest => by
    rw [Else.explicit, Else.accesses, Else.accesses, c.accesses_explicit names,
      b.accesses_explicit names, rest.accesses_explicit names, filter_append,
      filter_append]

theorem Fn.accesses_explicit (names : List Bytes) : ∀ f : Fn, (f.explicit names).accesses names =
      (f.accesses names).filter Access.isChain
  | .mk _ _ _ _ _ none => by simp [Fn.explicit, Fn.accesses]
  | .mk _ _ _ ps _ (some b) => by
    rw [Fn.explicit, Fn.accesses, Fn.accesses, b.accesses_explicit _]

end

theorem Program.accesses_explicit (p : Program) :
    p.explicit.accesses = p.accesses.filter Access.isChain := by
  simp only [accesses, explicit, flatMap_map, Stmt.accesses_explicit, filter_flatMap]

end Covenant
