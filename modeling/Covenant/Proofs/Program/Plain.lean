import Covenant.Clarity.Render

/-!
# Plain statements

Bindings, expressions, returns and conditionals are the statements that a function body is made of;
the others declare something or deal with errors.
-/

namespace Covenant

def Stmt.isPlain : Stmt → Bool
  | .letDecl .. | .constDecl .. | .exprStmt .. | .returnStmt .. | .ifStmt .. => true
  | _ => false

/-! ### Blocks of plain statements -/

section

variable (returns opens : Bool)

mutual

/-- All statements are plain.  Returns and chains without a last branch are there only where the
switches allow them. -/
def Stmt.arePlain : List Stmt → Bool
  | [] => true
  | .returnStmt .. :: rest => returns && Stmt.arePlain rest
  | .ifStmt _ _ b more :: rest =>
    (!more.isOpen || opens && !rest.isEmpty) && Block.isPlain b && Else.isPlain more &&
      Stmt.arePlain rest
  | s :: rest => s.isPlain && Stmt.arePlain rest

def Block.isPlain : Block → Bool
  | .mk _ ss => Stmt.arePlain ss

def Else.isPlain : Else → Bool
  | .absent => true
  | .final b => Block.isPlain b
  | .elseIf _ b rest => Block.isPlain b && Else.isPlain rest

end

end

/-! ### Blocks that can be rendered -/

section

variable (target : Version)

def Expr.canRender (sc : Scope) (e : Expr) : Bool :=
  (e.form target sc).isOk

mutual

/-- The expressions of the statements can be rendered where they stand. -/
def Stmt.canRender (sc : Scope) : List Stmt → Bool
  | [] => true
  | .letDecl _ n t e :: rest =>
    e.canRender target sc && Stmt.canRender (sc.bind n (t.or (e.knownType sc))) rest
  | .constDecl _ n t e :: rest =>
    e.canRender target sc && Stmt.canRender (sc.bind n (t.or (e.knownType sc))) rest
  | .exprStmt _ e :: rest => e.canRender target sc && Stmt.canRender sc rest
  | .returnStmt _ e :: rest => e.all (·.canRender target sc) && Stmt.canRender sc rest
  | .ifStmt _ c b more :: rest =>
    c.canRender target sc && Block.canRender sc b && Else.canRender sc more &&
    Stmt.canRender sc rest
  | _ :: rest => Stmt.canRender sc rest

def Block.canRender (sc : Scope) : Block → Bool
  | .mk _ ss => Stmt.canRender sc ss

/-- The conditions, and the expressions of the branches, can be rendered. -/
def Else.canRender (sc : Scope) : Else → Bool
  | .absent => true
  | .final b => Block.canRender sc b
  | .elseIf c b rest => c.canRender target sc && Block.canRender sc b && Else.canRender sc rest

end

end

/-! ### Induction -/

/-- `P` and `R` pass from the parts of statements and of chains of conditions to the whole.  The
conditional at the head of statements is a chain with one more condition. -/
structure Stmt.Hereditary (P : List Stmt → Prop) (R : Else → Prop) : Prop where
  nil : P []
  letDecl : ∀ p n t e rest, P rest → P (.letDecl p n t e :: rest)
  constDecl : ∀ p n t e rest, P rest → P (.constDecl p n t e :: rest)
  exprStmt : ∀ p e rest, P rest → P (.exprStmt p e :: rest)
  returnStmt : ∀ p e rest, P rest → P (.returnStmt p e :: rest)
  ifStmt : ∀ p c b more rest, R (.elseIf c b more) → P rest → P (.ifStmt p c b more :: rest)
  other : ∀ s rest, s.isPlain = false → P rest → P (s :: rest)
  absent : R .absent
  final : ∀ b, P b.statements → R (.final b)
  elseIf : ∀ c b rest, P b.statements → R rest → R (.elseIf c b rest)

namespace Stmt.Hereditary

mutual

theorem list (h : Hereditary P R) : ∀ ss, P ss
  | [] => h.nil
  | .letDecl p n t e :: rest => h.letDecl p n t e rest (list h rest)
  | .constDecl p n t e :: rest => h.constDecl p n t e rest (list h rest)
  | .exprStmt p e :: rest => h.exprStmt p e rest (list h rest)
  | .returnStmt p e :: rest => h.returnStmt p e rest (list h rest)
  | .ifStmt p c b more :: rest =>
    h.ifStmt p c b more rest (h.elseIf c b more (block h b) (chain h more)) (list h rest)
  | .fnDecl _ :: rest | .mapConst .. :: rest | .mapDecl _ :: rest | .assetDecl .. :: rest
  | .traitDecl .. :: rest | .tryStmt .. :: rest | .throwStmt .. :: rest | .importDecl .. :: rest
  | .exportDecl .. :: rest => h.other _ _ rfl (list h rest)

theorem block (h : Hereditary P R) : ∀ b : Block, P b.statements
  | .mk _ ss => list h ss

theorem chain (h : Hereditary P R) : ∀ more, R more
  | .absent => h.absent
  | .final b => h.final b (block h b)
  | .elseIf c b rest => h.elseIf c b rest (block h b) (chain h rest)

end

end Stmt.Hereditary

/-! ### First facts -/

theorem Block.isPlain_eq (b : Block) :
    b.isPlain returns opens = Stmt.arePlain returns opens b.statements := by
  cases b; rfl

theorem Block.canRender_eq (sc : Scope) (b : Block) :
    b.canRender target sc = Stmt.canRender target sc b.statements := by
  cases b; rfl

theorem Stmt.arePlain_other {s : Stmt} (rest : List Stmt) (h : s.isPlain = false) :
    arePlain returns opens (s :: rest) = false := by
  cases s with
  | letDecl | constDecl | exprStmt | returnStmt | ifStmt => cases h
  | _ => rfl

theorem Stmt.hereditary_arePlain : Hereditary
    (fun ss => arePlain returns opens ss = true → arePlain true true ss = true)
    (fun more => more.isPlain returns opens = true → more.isPlain true true = true) where
  nil h := h
  letDecl _ _ _ _ _ ih h := ih h
  constDecl _ _ _ _ _ ih h := ih h
  exprStmt _ _ _ ih h := ih h
  returnStmt := by
    intro p e rest ih h
    obtain ⟨-, h⟩ : returns = true ∧ arePlain returns opens rest = true := by
      simpa [arePlain] using h
    simpa [arePlain] using ih h
  ifStmt := by
    intro p c b more rest ihc ih h
    simp only [arePlain, Else.isPlain, Bool.and_eq_true, Bool.or_eq_true] at h ihc ⊢
    obtain ⟨⟨⟨ho, hb⟩, hm⟩, hr⟩ := h
    obtain ⟨hb', hm'⟩ := ihc ⟨hb, hm⟩
    exact ⟨⟨⟨ho.imp id fun h => ⟨trivial, h.2⟩, hb'⟩, hm'⟩, ih hr⟩
  other := by
    intro s rest hs _ h
    rw [arePlain_other rest hs] at h
    cases h
  absent h := h
  final := by
    intro b ih h
    rw [Else.isPlain, Block.isPlain_eq] at h ⊢
    exact ih h
  elseIf := by
    intro c b rest ihb ihr h
    simp only [Else.isPlain, Bool.and_eq_true, Block.isPlain_eq] at h ⊢
    exact ⟨ihb h.1, ihr h.2⟩

theorem Block.isPlain_of_isPlain {b : Block} (h : b.isPlain returns opens = true) :
    b.isPlain true true = true := by
  rw [isPlain_eq] at h ⊢
  exact Stmt.hereditary_arePlain.block b h

end Covenant
