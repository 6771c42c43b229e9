import Covenant.Proofs.Clarity.Evaluation
import Covenant.Proofs.Program.Plain

/-!
# Running statements

What the statements of a block mean, given what expressions mean.  An expression means what its form
does, under the names and types in force where it stands; it reads the names and leaves them as they
are, so it must assign nothing.

A block that runs off its end has the value of its last statement, of which a binding has the value
that it binds; an empty block has the value of the empty list.

`Block.nested_eq_run` says that the two agree on every run that does not stray.  A run strays where
a `return` leaves out statements behind it or behind a conditional that covers all cases, and where
a branch of a chain that covers only some cases runs on into the statements behind the chain.
-/

namespace Covenant

/-- How the run of a block ends. -/
structure Outcome (V : Type) where
  /-- The value returned, or that of the last statement. -/
  value : V
  returned : Bool := false
  /-- The run went where nesting what follows into a chain does not lead. -/
  strays : Bool := false

variable (target : Version) {σ V : Type} (I : Interpretation σ V) {env : Env V} {more : Else}
    {o : Outcome V} {s s' : σ} {sc : Scope}

/-- What comes after a branch of a chain of conditions, `rest` being what follows the chain. -/
def Outcome.andThen (o : Outcome V) (isOpen : Bool) (rest : List Stmt)
    (next : V → StateM σ (Outcome V)) : StateM σ (Outcome V) :=
  if o.returned then
    pure { o with strays := o.strays || (!isOpen && !rest.isEmpty) }
  else do
    let p ← next o.value
    pure { p with strays := o.strays || p.strays || (isOpen && !rest.isEmpty) }

/-- The effect and the value of an expression: those of its form. -/
def Expr.act (sc : Scope) (env : Env V) (e : Expr) : StateM σ V :=
  match e.form target sc with
  | .ok f => f.eval I env
  | .error _ => pure I.unit

def actOrUnit (sc : Scope) (env : Env V) : Option Expr → StateM σ V
  | some e => e.act target I sc env
  | none => pure I.unit

/-! ### The meaning of the language -/

mutual

/-- Run statements in order; `last` is the value of the statement before them. -/
def Stmt.run (sc : Scope) (env : Env V) (last : V) : List Stmt → StateM σ (Outcome V)
  | [] => pure { value := last }
  | .letDecl _ n t e :: rest => do
    let v ← e.act target I sc env
    Stmt.run (sc.bind n (t.or (e.knownType sc))) (env.bind n.name v) v rest
  | .constDecl _ n t e :: rest => do
    let v ← e.act target I sc env
    Stmt.run (sc.bind n (t.or (e.knownType sc))) (env.bind n.name v) v rest
  | .exprStmt _ e :: rest => do
    let v ← e.act target I sc env
    Stmt.run sc env v rest
  | .returnStmt _ e :: rest => do
    let v ← actOrUnit target I sc env e
    pure { value := v, returned := true, strays := !rest.isEmpty }
  | .ifStmt _ c b more :: rest => do
    let taken ← I.branch (c.act target I sc env) (some <$> Block.run sc env b)
      (Else.run sc env more)
    match taken with
    | none => Stmt.run sc env I.unit rest
    | some o => o.andThen more.isOpen rest fun v => Stmt.run sc env v rest
  | _ :: rest => Stmt.run sc env I.unit rest

def Block.run (sc : Scope) (env : Env V) : Block → StateM σ (Outcome V)
  | .mk _ ss => Stmt.run sc env I.unit ss

def Else.run (sc : Scope) (env : Env V) : Else → StateM σ (Option (Outcome V))
  | .absent => pure none
  | .final b => some <$> Block.run sc env b
  | .elseIf c b rest =>
    I.branch (c.act target I sc env) (some <$> Block.run sc env b) (Else.run sc env rest)

end

/-! ### Blocks as expressions -/

mutual

/-- Statements read as one expression; `last` is the value of the statement before them. -/
def Stmt.nested (sc : Scope) (env : Env V) (last : V) : List Stmt → StateM σ V
  | [] => pure last
  | .letDecl _ n t e :: rest => do
    let v ← e.act target I sc env
    Stmt.nested (sc.bind n (t.or (e.knownType sc))) (env.bind n.name v) v rest
  | .constDecl _ n t e :: rest => do
    let v ← e.act target I sc env
    Stmt.nested (sc.bind n (t.or (e.knownType sc))) (env.bind n.name v) v rest
  | .exprStmt _ e :: rest => do
    let v ← e.act target I sc env
    Stmt.nested sc env v rest
  | .returnStmt _ e :: rest => do
    let v ← actOrUnit target I sc env e
    Stmt.nested sc env v rest
  | .ifStmt _ c b more :: rest =>
    if more.isOpen then
      I.branch (c.act target I sc env) (Block.nested sc env b)
        (Else.nested sc env (Stmt.nested sc env I.unit rest) more)
    else do
      let v ← I.branch (c.act target I sc env) (Block.nested sc env b)
        (Else.nested sc env (pure I.unit) more)
      Stmt.nested sc env v rest
  | _ :: rest => Stmt.nested sc env I.unit rest

def Block.nested (sc : Scope) (env : Env V) : Block → StateM σ V
  | .mk _ ss => Stmt.nested sc env I.unit ss

/-- The first branch whose condition holds, or else what has `fallen` through. -/
def Else.nested (sc : Scope) (env : Env V) (fallen : StateM σ V) : Else → StateM σ V
  | .absent => fallen
  | .final b => Block.nested sc env b
  | .elseIf c b rest =>
    I.branch (c.act target I sc env) (Block.nested sc env b) (Else.nested sc env fallen rest)

end

/-! ### Parts of a run -/

section

variable {target I}
theorem Block.run_eq (b : Block) :
    b.run target I sc env = Stmt.run target I sc env I.unit b.statements := by
  cases b; rfl

theorem Block.nested_eq (b : Block) :
    b.nested target I sc env = Stmt.nested target I sc env I.unit b.statements := by
  cases b; rfl

theorem Stmt.run_other (last : V) {st : Stmt} (rest : List Stmt) (h : st.isPlain = false) :
    run target I sc env last (st :: rest) = run target I sc env I.unit rest := by
  cases st with
  | letDecl | constDecl | exprStmt | returnStmt | ifStmt => cases h
  | _ => rfl

theorem Stmt.nested_other (last : V) {st : Stmt} (rest : List Stmt) (h : st.isPlain = false) :
    nested target I sc env last (st :: rest) = nested target I sc env I.unit rest := by
  cases st with
  | letDecl | constDecl | exprStmt | returnStmt | ifStmt => cases h
  | _ => rfl

theorem Stmt.nested_if_open (last : V) (p : Pos) (rest : List Stmt) (h : more.isOpen = true) :
    nested target I sc env last (.ifStmt p c b more :: rest) =
      (Else.elseIf c b more).nested target I sc env (nested target I sc env I.unit rest) := by
  rw [nested, if_pos h, Else.nested]

theorem Stmt.nested_if_closed (last : V) (p : Pos) (rest : List Stmt) (h : more.isOpen = false) :
    nested target I sc env last (.ifStmt p c b more :: rest) =
      (Else.elseIf c b more).nested target I sc env (pure I.unit) >>= fun v =>
        nested target I sc env v rest := by
  rw [nested, if_neg (by simp [h]), Else.nested]

theorem Else.isOpen_of_run_eq_none :
    ∀ (more : Else) (s : σ), (more.run target I sc env s).1 = none → more.isOpen = true
  | .absent, _, _ => rfl
  | .final _, _, h => by cases h
  | .elseIf c b rest, s, h => by
    rw [run, branch_apply] at h
    split at h
    · cases h
    · exact isOpen_of_run_eq_none rest _ h

variable (target I) in
theorem Stmt.run_if_cases (sc : Scope) (env : Env V) (last : V) (p : Pos) (c : Expr) (b : Block)
    (more : Else) (rest : List Stmt) (s : σ) :
    (∃ s', (Else.elseIf c b more).run target I sc env s = (none, s') ∧ more.isOpen = true ∧
      run target I sc env last (.ifStmt p c b more :: rest) s =
        run target I sc env I.unit rest s') ∨
    (∃ o s', (Else.elseIf c b more).run target I sc env s = (some o, s') ∧ o.returned = true ∧
      run target I sc env last (.ifStmt p c b more :: rest) s =
        ({ o with strays := o.strays || (!more.isOpen && !rest.isEmpty) }, s')) ∨
    (∃ o s' q t, (Else.elseIf c b more).run target I sc env s = (some o, s') ∧ o.returned = false ∧
      run target I sc env o.value rest s' = (q, t) ∧
      run target I sc env last (.ifStmt p c b more :: rest) s =
        ({ q with strays := o.strays || q.strays || (more.isOpen && !rest.isEmpty) }, t)) := by
  rcases h : (Else.elseIf c b more).run target I sc env s with ⟨_ | o, s'⟩
  · refine .inl ⟨s', rfl, ?_, ?_⟩
    · exact Else.isOpen_of_run_eq_none (.elseIf c b more) s (by rw [h])
    · rw [Else.run] at h
      rw [run, bind_apply, h]
  · have hrun : run target I sc env last (.ifStmt p c b more :: rest) s =
        o.andThen more.isOpen rest (fun v => run target I sc env v rest) s' := by
      rw [Else.run] at h
      rw [run, bind_apply, h]
    rw [hrun, Outcome.andThen]
    by_cases ho : o.returned = true
    · rw [if_pos ho]
      exact .inr (.inl ⟨o, s', rfl, ho, rfl⟩)
    · rw [if_neg ho]
      exact .inr (.inr ⟨o, s', _, _, rfl, by simpa using ho, rfl, rfl⟩)

end

/-! ### Runs that do not stray -/

/-- The two meanings of statements agree on every run that does not stray. -/
def Stmt.Agree (ss : List Stmt) : Prop :=
  ∀ (sc : Scope) (env : Env V) (last : V) (s : σ) (o : Outcome V) (s' : σ),
    Stmt.run target I sc env last ss s = (o, s') → o.strays = false →
      Stmt.nested target I sc env last ss s = (o.value, s')

/-- The two meanings of a chain agree: both take the same branch, or both take none. -/
def Else.Agree (more : Else) : Prop :=
  ∀ (sc : Scope) (env : Env V) (fallen : StateM σ V) (s : σ),
    match more.run target I sc env s with
    | (none, s') => more.nested target I sc env fallen s = fallen s'
    | (some o, s') => o.strays = false → more.nested target I sc env fallen s = (o.value, s')

variable {target I}

theorem Else.Agree.some (h : more.Agree target I)
    (hr : more.run target I sc env s = (some o, s')) (hs : o.strays = false)
    (fallen : StateM σ V) : more.nested target I sc env fallen s = (o.value, s') := by
  have := h sc env fallen s
  rw [hr] at this
  exact this hs

theorem Else.Agree.none (h : more.Agree target I)
    (hr : more.run target I sc env s = (none, s')) (fallen : StateM σ V) :
    more.nested target I sc env fallen s = fallen s' := by
  have := h sc env fallen s
  rwa [hr] at this

theorem Stmt.agree_if {rest : List Stmt} (p : Pos)
    (hc : (Else.elseIf c b more).Agree target I) (hr : Agree target I rest) :
    Agree target I (.ifStmt p c b more :: rest) := by
  intro sc env last s o s' h hs
  obtain ⟨t, ht, ho, hrun⟩ | ⟨q, t, ht, -, hrun⟩ | ⟨q, t, r, t', ht, -, hrest, hrun⟩ :=
    run_if_cases target I sc env last p c b more rest s
  · rw [nested_if_open last p rest ho, hc.none ht]
    exact hr _ _ _ _ _ _ (hrun.symm.trans h) hs
  · cases hrun.symm.trans h
    cases ho : more.isOpen with
    | true =>
      rw [nested_if_open last p rest ho]
      exact hc.some ht (by simpa [ho] using hs) _
    | false =>
      -- what follows would be left out, so there is nothing
      obtain ⟨hq, rfl⟩ : q.strays = false ∧ rest = [] := by simpa [ho] using hs
      rw [nested_if_closed last p [] ho, bind_apply, hc.some ht hq]
      rfl
  · cases hrun.symm.trans h
    cases ho : more.isOpen with
    | true =>
      -- the branch would run on into what follows, so there is nothing
      obtain ⟨⟨hq, -⟩, rfl⟩ : (q.strays = false ∧ r.strays = false) ∧ rest = [] := by
        simpa [ho] using hs
      cases hrest
      rw [nested_if_open last p [] ho]
      exact hc.some ht hq _
    | false =>
      obtain ⟨hq, hrs⟩ : q.strays = false ∧ r.strays = false := by simpa [ho] using hs
      rw [nested_if_closed last p rest ho, bind_apply, hc.some ht hq]
      exact hr sc env q.value t r s' hrest hrs

variable (target I)

theorem Stmt.hereditary_agree : Hereditary (Agree target I) (Else.Agree target I) where
  nil := by
    rintro sc env last s o s' h -
    cases h
    rfl
  letDecl _ _ _ _ _ ih _ _ _ _ _ _ h := ih _ _ _ _ _ _ h
  constDecl _ _ _ _ _ ih _ _ _ _ _ _ h := ih _ _ _ _ _ _ h
  exprStmt _ _ _ ih _ _ _ _ _ _ h := ih _ _ _ _ _ _ h
  returnStmt := by
    intro _ e rest _ sc env _ s o s' h hs
    cases h
    obtain rfl : rest = [] := by simpa using hs
    rfl
  ifStmt p _ _ _ _ hc hr := agree_if p hc hr
  other := by
    intro st rest hp ih sc env last s o s' h
    rw [run_other last rest hp] at h
    rw [nested_other last rest hp]
    exact ih _ _ _ _ _ _ h
  absent _ _ _ _ := rfl
  final := by
    intro b ih sc env fallen s
    rw [Else.run, map_apply, Else.nested, Block.run_eq, Block.nested_eq]
    exact ih _ _ _ _ _ _ rfl
  elseIf := by
    intro c b rest ihb ihr sc env fallen s
    rw [Else.run, branch_apply, Else.nested, branch_apply]
    by_cases hc : I.holds (c.act target I sc env s).1 = true
    · rw [if_pos hc, if_pos hc, map_apply, Block.run_eq, Block.nested_eq]
      exact ihb _ _ _ _ _ _ rfl
    · rw [if_neg hc, if_neg hc]
      exact ihr sc env fallen _

/-- **A run that does not stray is that of the block read as one expression.** -/
theorem Block.nested_eq_run {b : Block}
    (h : b.run target I sc env s = (o, s')) (hs : o.strays = false) :
    b.nested target I sc env s = (o.value, s') := by
  rw [run_eq] at h
  rw [nested_eq]
  exact (Stmt.hereditary_agree target I).block b _ _ _ _ _ _ h hs

end Covenant
