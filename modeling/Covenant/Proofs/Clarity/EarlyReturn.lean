import Covenant.Proofs.Clarity.Sequence

/-!
# Returns before the end

Clarity has no way to leave a function early, and the form of a `return` is no more than that of its
value.  Still a body may return early where nesting takes care of what follows: behind a chain
without a last branch whose branches all return, that is behind guards.
-/

namespace Covenant

open Block

/-! ### Guards -/

mutual

def Stmt.alwaysReturn : List Stmt → Bool
  | [] => false
  | .returnStmt .. :: _ => true
  | .ifStmt _ _ b more :: rest =>
    !more.isOpen && Block.alwaysReturns b && Else.alwaysReturns more || Stmt.alwaysReturn rest
  | _ :: rest => Stmt.alwaysReturn rest

def Block.alwaysReturns : Block → Bool
  | .mk _ ss => Stmt.alwaysReturn ss

def Else.alwaysReturns : Else → Bool
  | .absent => true
  | .final b => Block.alwaysReturns b
  | .elseIf _ b rest => Block.alwaysReturns b && Else.alwaysReturns rest

end

mutual

/-- Plain statements with a `return` only at the end.  A chain without a last branch is followed by
something, and its branches return on every path; any other conditional is the last statement, or
has neither a `return` nor a chain without a last branch in it. -/
def Stmt.areGuarded : List Stmt → Bool
  | [] => true
  | .returnStmt .. :: rest => rest.isEmpty
  | .ifStmt _ _ b more :: rest =>
    if more.isOpen then
      !rest.isEmpty && Block.isGuarded b && Else.isGuarded more && b.alwaysReturns &&
        more.alwaysReturns && Stmt.areGuarded rest
    else if rest.isEmpty then Block.isGuarded b && Else.isGuarded more
    else b.isPlain false false && more.isPlain false false && Stmt.areGuarded rest
  | s :: rest => s.isPlain && Stmt.areGuarded rest

def Block.isGuarded : Block → Bool
  | .mk _ ss => Stmt.areGuarded ss

def Else.isGuarded : Else → Bool
  | .absent => true
  | .final b => Block.isGuarded b
  | .elseIf _ b rest => Block.isGuarded b && Else.isGuarded rest

end

theorem Block.alwaysReturns_eq (b : Block) : b.alwaysReturns = Stmt.alwaysReturn b.statements := by
  cases b; rfl

theorem Block.isGuarded_eq (b : Block) : b.isGuarded = Stmt.areGuarded b.statements := by
  cases b; rfl

/-! ### How runs end -/

section

variable (target : Version) {σ V : Type} (I : Interpretation σ V) {Q : Outcome V → Prop}

def Stmt.End (Q : Outcome V → Prop) (ss : List Stmt) : Prop :=
  ∀ (sc : Scope) (env : Env V) (last : V) (s : σ), Q (Stmt.run target I sc env last ss s).1

def Else.Ends (Q : Outcome V → Prop) (more : Else) : Prop :=
  ∀ (sc : Scope) (env : Env V) (s : σ) (o : Outcome V) (s' : σ),
    more.run target I sc env s = (some o, s') → Q o

variable {target I}

theorem Else.ends_absent : Ends target I Q .absent := by
  intro sc env s o s' h
  cases h

theorem Else.ends_final {b : Block} (h : Stmt.End target I Q b.statements) :
    Ends target I Q (.final b) := by
  intro sc env s o s' hr
  rw [run, map_apply, run_eq] at hr
  cases hr
  exact h _ _ _ _

theorem Else.ends_elseIf {b : Block} {rest : Else}
    (hb : Stmt.End target I Q b.statements) (hr : rest.Ends target I Q) :
    Ends target I Q (.elseIf c b rest) := by
  intro sc env s o s' h
  rw [run, branch_apply] at h
  split at h
  · exact ends_final hb sc env _ o s' h
  · exact hr _ _ _ _ _ h

variable (target I)

theorem Stmt.hereditary_returned : Hereditary
    (fun ss => alwaysReturn ss = true → End target I (·.returned = true) ss)
    (fun more => more.alwaysReturns = true → more.Ends target I (·.returned = true)) where
  nil h := by cases h
  letDecl _ _ _ _ _ ih h _ _ _ _ := ih h _ _ _ _
  constDecl _ _ _ _ _ ih h _ _ _ _ := ih h _ _ _ _
  exprStmt _ _ _ ih h _ _ _ _ := ih h _ _ _ _
  returnStmt _ _ _ _ _ _ _ _ _ := rfl
  ifStmt := by
    intro p c b more rest ihc ih h sc env last s
    simp only [alwaysReturn, Bool.or_eq_true, Bool.and_eq_true, Bool.not_eq_true'] at h
    obtain ⟨t, -, ho, hrun⟩ | ⟨o, t, -, hq, hrun⟩ | ⟨o, t, q, t', ht, hq, hrest, hrun⟩ :=
      run_if_cases target I sc env last p c b more rest s
    · -- a chain that takes no branch is open, so what follows returns
      obtain ⟨⟨hc, -⟩, -⟩ | hr := h
      · rw [ho] at hc
        cases hc
      · rw [hrun]
        exact ih hr _ _ _ _
    · rw [hrun]
      exact hq
    · obtain ⟨⟨-, hb⟩, hm⟩ | hr := h
      · -- all branches return, so none runs off its end
        have hret : o.returned = true := ihc (by simp [Else.alwaysReturns, hb, hm]) sc env s o t ht
        rw [hq] at hret
        cases hret
      · have hret := ih hr sc env o.value t
        rw [hrest] at hret
        rw [hrun]
        exact hret
  other := by
    intro st rest hst ih h sc env last s
    rw [run_other last rest hst]
    refine ih ?_ _ _ _ _
    cases st with
    | letDecl | constDecl | exprStmt | returnStmt | ifStmt => cases hst
    | _ => exact h
  absent _ := Else.ends_absent
  final := by
    intro b ih h
    rw [Else.alwaysReturns, alwaysReturns_eq] at h
    exact Else.ends_final (ih h)
  elseIf := by
    intro c b rest ihb ihr h
    simp only [Else.alwaysReturns, Bool.and_eq_true, alwaysReturns_eq] at h
    exact Else.ends_elseIf (ihb h.1) (ihr h.2)

theorem Stmt.hereditary_fell : Hereditary (fun ss => arePlain false false ss = true →
      End target I (fun o => o.returned = false ∧ o.strays = false) ss)
    (fun more => more.isPlain false false = true →
      more.Ends target I (fun o => o.returned = false ∧ o.strays = false)) where
  nil _ _ _ _ _ := ⟨rfl, rfl⟩
  letDecl _ _ _ _ _ ih h _ _ _ _ := ih h _ _ _ _
  constDecl _ _ _ _ _ ih h _ _ _ _ := ih h _ _ _ _
  exprStmt _ _ _ ih h _ _ _ _ := ih h _ _ _ _
  returnStmt _ _ _ _ h := by cases h
  ifStmt := by
    intro p c b more rest ihc ih h sc env last s
    simp only [arePlain, Bool.false_and, Bool.or_false, Bool.and_eq_true, Bool.not_eq_true'] at h
    obtain ⟨⟨⟨hc, hb⟩, hm⟩, hr⟩ := h
    have hends := ihc (by simp [Else.isPlain, hb, hm])
    obtain ⟨t, -, ho, hrun⟩ | ⟨o, t, ht, hq, hrun⟩ | ⟨o, t, q, t', ht, -, hrest, hrun⟩ :=
      run_if_cases target I sc env last p c b more rest s
    · rw [hc] at ho
      cases ho
    · -- a branch that returned would have a `return` in it
      rw [(hends sc env s o t ht).1] at hq
      cases hq
    · have hq : q.returned = false ∧ q.strays = false := by
        have := ih hr sc env o.value t
        rwa [hrest] at this
      rw [hrun]
      exact ⟨hq.1, by simp [(hends sc env s o t ht).2, hq.2, hc]⟩
  other := by
    intro st rest hst _ h
    rw [arePlain_other rest hst] at h
    cases h
  absent _ := Else.ends_absent
  final := by
    intro b ih h
    rw [Else.isPlain, isPlain_eq] at h
    exact Else.ends_final (ih h)
  elseIf := by
    intro c b rest ihb ihr h
    simp only [Else.isPlain, Bool.and_eq_true, isPlain_eq] at h
    exact Else.ends_elseIf (ihb h.1) (ihr h.2)

theorem Stmt.areGuarded_other {st : Stmt} (rest : List Stmt) (h : st.isPlain = false) :
    areGuarded (st :: rest) = false := by
  cases st with
  | letDecl | constDecl | exprStmt | returnStmt | ifStmt => cases h
  | _ => rfl

section

variable {target I}
variable {env : Env V} {s s' : σ} {o : Outcome V}

section

variable
    (ihc : (Else.elseIf c b more).isGuarded = true →
    (Else.elseIf c b more).Ends target I (·.strays = false))
    (h : Stmt.areGuarded (.ifStmt p c b more :: rest) = true)
    (ht : (Else.elseIf c b more).run target I sc env s = (some o, s'))

include ihc h ht

theorem Stmt.guarded_returned (ho : o.returned = true) :
    (o.strays || (!more.isOpen && !rest.isEmpty)) = false := by
  rw [areGuarded] at h
  split at h
  · rename_i hopen
    simp only [Bool.and_eq_true] at h
    obtain ⟨⟨⟨⟨⟨-, hb⟩, hm⟩, -⟩, -⟩, -⟩ := h
    have hs : o.strays = false := ihc (by simp [Else.isGuarded, hb, hm]) sc env s o s' ht
    simp [hs, hopen]
  · split at h
    · rename_i hlast
      simp only [Bool.and_eq_true] at h
      have hs : o.strays = false := ihc (by simp [Else.isGuarded, h.1, h.2]) sc env s o s' ht
      simp [hs, hlast]
    · simp only [Bool.and_eq_true] at h
      obtain ⟨⟨hb, hm⟩, -⟩ := h
      have hf := (hereditary_fell target I).chain (.elseIf c b more)
        (by simp [Else.isPlain, hb, hm]) sc env s o s' ht
      rw [hf.1] at ho
      cases ho

theorem Stmt.guarded_fell {q : Outcome V} (ho : o.returned = false)
    (hq : areGuarded rest = true → q.strays = false) :
    (o.strays || q.strays || (more.isOpen && !rest.isEmpty)) = false := by
  rw [areGuarded] at h
  split at h
  · -- the branches of a guard return
    simp only [Bool.and_eq_true] at h
    obtain ⟨⟨⟨⟨-, -⟩, hb⟩, hm⟩, -⟩ := h
    have hret : o.returned = true := (hereditary_returned target I).chain (.elseIf c b more)
      (by simp [Else.alwaysReturns, hb, hm]) sc env s o s' ht
    rw [ho] at hret
    cases hret
  · rename_i hclosed
    split at h
    · rename_i hlast
      simp only [Bool.and_eq_true] at h
      have hs : o.strays = false := ihc (by simp [Else.isGuarded, h.1, h.2]) sc env s o s' ht
      obtain rfl : rest = [] := by simpa using hlast
      simp [hs, hq rfl]
    · simp only [Bool.and_eq_true] at h
      obtain ⟨⟨hb, hm⟩, hr⟩ := h
      have hf := (hereditary_fell target I).chain (.elseIf c b more)
        (by simp [Else.isPlain, hb, hm]) sc env s o s' ht
      simp [hf.2, hq hr, hclosed]

end

end

theorem Stmt.hereditary_guarded : Hereditary
    (fun ss => areGuarded ss = true → End target I (·.strays = false) ss)
    (fun more => more.isGuarded = true → more.Ends target I (·.strays = false)) where
  nil _ _ _ _ _ := rfl
  letDecl _ _ _ _ _ ih h _ _ _ _ := ih h _ _ _ _
  constDecl _ _ _ _ _ ih h _ _ _ _ := ih h _ _ _ _
  exprStmt _ _ _ ih h _ _ _ _ := ih h _ _ _ _
  returnStmt := by
    intro p e rest _ h sc env last s
    obtain rfl : rest = [] := by simpa [areGuarded] using h
    rfl
  ifStmt := by
    intro p c b more rest ihc ih h sc env last s
    obtain ⟨t, -, ho, hrun⟩ | ⟨o, t, ht, ho, hrun⟩ | ⟨o, t, q, t', ht, ho, hrest, hrun⟩ :=
      run_if_cases target I sc env last p c b more rest s
    · rw [hrun]
      rw [areGuarded, if_pos ho] at h
      simp only [Bool.and_eq_true] at h
      exact ih h.2 _ _ _ _
    · rw [hrun]
      exact guarded_returned ihc h ht ho
    · have hq : areGuarded rest = true → q.strays = false := by
        intro hr
        have := ih hr sc env o.value t
        rwa [hrest] at this
      rw [hrun]
      exact guarded_fell ihc h ht ho hq
  other := by
    intro st rest hst _ h
    rw [areGuarded_other rest hst] at h
    cases h
  absent _ := Else.ends_absent
  final := by
    intro b ih h
    rw [Else.isGuarded, isGuarded_eq] at h
    exact Else.ends_final (ih h)
  elseIf := by
    intro c b rest ihb ihr h
    simp only [Else.isGuarded, Bool.and_eq_true, isGuarded_eq] at h
    exact Else.ends_elseIf (ihb h.1) (ihr h.2)

end

theorem Stmt.hereditary_arePlain_of_areGuarded : Hereditary
    (fun ss => areGuarded ss = true → arePlain true true ss = true)
    (fun more => more.isGuarded = true → more.isPlain true true = true) where
  nil _ := rfl
  letDecl _ _ _ _ _ ih h := ih h
  constDecl _ _ _ _ _ ih h := ih h
  exprStmt _ _ _ ih h := ih h
  returnStmt := by
    intro p e rest _ h
    obtain rfl : rest = [] := by simpa [areGuarded] using h
    rfl
  ifStmt := by
    intro p c b more rest ihc ih h
    simp only [Else.isGuarded, Else.isPlain, Bool.and_eq_true] at ihc
    rw [areGuarded] at h
    split at h
    · simp only [Bool.and_eq_true] at h
      obtain ⟨⟨⟨⟨⟨hne, hb⟩, hm⟩, -⟩, -⟩, hr⟩ := h
      simp [arePlain, ihc ⟨hb, hm⟩, ih hr, hne]
    · rename_i hclosed
      split at h
      · rename_i hlast
        obtain rfl : rest = [] := by simpa using hlast
        simp only [Bool.and_eq_true] at h
        simp [arePlain, ihc h, hclosed]
      · simp only [Bool.and_eq_true] at h
        obtain ⟨⟨hb, hm⟩, hr⟩ := h
        have hb' := Block.isPlain_of_isPlain hb
        have hm' := hereditary_arePlain.chain more hm
        simp [arePlain, hb', hm', ih hr, hclosed]
  other := by
    intro st rest hst _ h
    rw [areGuarded_other rest hst] at h
    cases h
  absent _ := rfl
  final := by
    intro b ih h
    rw [Else.isGuarded, Block.isGuarded_eq] at h
    rw [Else.isPlain, Block.isPlain_eq]
    exact ih h
  elseIf := by
    intro c b rest ihb ihr h
    simp only [Else.isGuarded, Else.isPlain, Bool.and_eq_true, Block.isGuarded_eq,
      Block.isPlain_eq] at h ⊢
    exact ⟨ihb h.1, ihr h.2⟩

/-! ### Bodies with guards -/

variable {target : Version}

/-- **A body with guards keeps its meaning.**  It renders whenever its expressions do; and from any
state, under any names, the form does in the same order and answers what running the statements up
to the first `return` does and answers. -/
theorem Block.eval_guarded {sc : Scope} {b : Block} (hg : b.isGuarded = true)
    (hr : b.canRender target sc = true) :
    ∃ f, b.form target sc = .ok f ∧
      ∀ {σ V : Type} (I : Interpretation σ V) (env : Env V),
        f.eval I env = Outcome.value <$> b.run target I sc env := by
  rw [isGuarded_eq] at hg
  have hp : b.isPlain true true = true := by
    rw [isPlain_eq]
    exact Stmt.hereditary_arePlain_of_areGuarded.block b hg
  obtain ⟨f, hf, heval⟩ := form_eq_nested hp hr
  refine ⟨f, hf, fun I env => ?_⟩
  funext s
  have hs : (b.run target I sc env s).1.strays = false := by
    rw [run_eq]
    exact (Stmt.hereditary_guarded target I).block b hg _ _ _ _
  rw [heval, nested_eq_run target I rfl hs, map_apply]

/-- Bind `x`, return it if `c` holds, and else bind `x` anew and return that. -/
def guardedBody : Block :=
  .mk {} [.letDecl {} ⟨"x", {}⟩ none (.ofName "a"),
    .ifStmt {} (.ofName "c") (.mk {} [.returnStmt {} (some (.ofName "x"))]) .absent,
    .constDecl {} ⟨"x", {}⟩ none (.ofName "b"),
    .returnStmt {} (some (.ofName "x"))]

theorem guardedBody_eval : ∃ f, guardedBody.form Target.default [] = .ok f ∧
    f.eval .log (fun _ => none) [] = (true, [Bytes.ofString "a", "c"]) := by
  obtain ⟨f, hf, h⟩ : ∃ f, guardedBody.form Target.default [] = .ok f ∧ _ :=
    Block.eval_guarded (by decide) (by decide)
  refine ⟨f, hf, ?_⟩
  rw [h]
  rfl

/-! ### Returns with nothing behind them -/

/-- **A return ends the function where nothing is behind it.**  All chains have a last branch.  The
form evaluates every statement on the way, and a `return` is no more than its value; so it does and
answers what a run does and answers whose `return` leaves nothing out, neither in its block nor in
one around it. -/
theorem Block.eval_tail_return {sc : Scope} {b : Block} (hp : b.isPlain true false = true)
    (hr : b.canRender target sc = true) :
    ∃ f, b.form target sc = .ok f ∧
      ∀ {σ V : Type} (I : Interpretation σ V) (env : Env V),
        f.eval I env = b.nested target I sc env ∧
        ∀ (s : σ) (o : Outcome V) (s' : σ), b.run target I sc env s = (o, s') →
          o.returned = true → o.strays = false → f.eval I env s = (o.value, s') := by
  obtain ⟨f, hf, heval⟩ := form_eq_nested (isPlain_of_isPlain hp) hr
  refine ⟨f, hf, fun I env => ⟨heval I env, fun s o s' hrun _ hs => ?_⟩⟩
  rw [heval]
  exact nested_eq_run target I hrun hs

def lastReturn : Block :=
  .mk {} [.exprStmt {} (.ofName "b"),
    .ifStmt {} (.ofName "c") (.mk {} [.returnStmt {} (some (.ofName "a"))])
      (.final (.mk {} [.returnStmt {} (some (.ofName "d"))]))]

theorem lastReturn_eval : ∃ f, lastReturn.form Target.default [] = .ok f ∧
    f.eval .log (fun _ => none) [] = (true, [Bytes.ofString "b", "c", "a"]) := by
  obtain ⟨f, hf, h⟩ : ∃ f, lastReturn.form Target.default [] = .ok f ∧ _ :=
    eval_tail_return (by decide) (by decide)
  exact ⟨f, hf, (h .log fun _ => none).2 [] _ _ rfl rfl rfl⟩

def passedReturn : Block :=
  .mk {} [.ifStmt {} (.ofName "c") (.mk {} [.returnStmt {} (some (.ofName "a"))])
      (.final (.mk {} [])),
    .exprStmt {} (.ofName "b")]

/-- Where `c` holds, a run returns `a`, but the form goes on with `b`. -/
theorem passedReturn_goes_on :
    passedReturn.isPlain true false = true ∧
    (∃ f, passedReturn.form Target.default [] = .ok f ∧
      (f.eval .log (fun _ => none) []).2 = [Bytes.ofString "c", "a", "b"]) ∧
    passedReturn.run Target.default .log [] (fun _ => none) [] =
      ({ value := true, returned := true, strays := true }, [Bytes.ofString "c", "a"]) := by
  refine ⟨by decide, ⟨_, rfl, ?_⟩, rfl⟩
  decide

end Covenant
