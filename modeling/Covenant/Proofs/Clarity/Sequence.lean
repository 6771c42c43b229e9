import Covenant.Proofs.Program.Run
import Covenant.Version

/-!
# Forms of statements in sequence

`Block.form_eq_nested` is what rendering does with plain statements: it succeeds whenever their
expressions can be rendered and every chain without a last branch is followed by something, and the
form does and answers what the block does and answers when it is read as one expression.

So what follows a chain without a last branch runs only when none of its conditions holds
(`Block.eval_open_chain`), while in the language it runs in any case (`openChain_leaves_out_rest`).
-/

namespace Covenant

open Form (atom stack)

/-! ### Evaluating in order -/

section

variable {σ V : Type} {I : Interpretation σ V}

theorem Interpretation.inOrder_cons (a : StateM σ V) {as : List (StateM σ V)} (h : as ≠ []) :
    I.inOrder (a :: as) = a >>= fun _ => I.inOrder as := by
  cases as with
  | nil => exact absurd rfl h
  | cons b as => rfl

theorem Stmt.nested_last {env : Env V} (v w : V) (h : ss ≠ []) :
    nested target I sc env v ss = nested target I sc env w ss := by
  cases ss with
  | nil => exact absurd rfl h
  | cons s ss => cases s <;> rfl

theorem inOrder_cons_eq_nested {env : Env V} {fs : List Form} {rest : List Stmt}
    (he : fs.isEmpty = rest.isEmpty)
    (h : I.inOrder (fs.map (·.eval I env)) = Stmt.nested target I sc env I.unit rest)
    (a : StateM σ V) :
    I.inOrder (a :: fs.map (·.eval I env)) = a >>= fun v => Stmt.nested target I sc env v rest := by
  cases rest with
  | nil =>
    obtain rfl : fs = [] := by simpa using he
    exact (bind_pure a).symm
  | cons r rest =>
    have hfs : fs ≠ [] := by simpa using he
    rw [Interpretation.inOrder_cons a (by simpa using hfs), h]
    congr 1
    funext v
    exact Stmt.nested_last _ _ (by simp)

end

/-! ### Rendering one statement after another -/

variable {e : Expr} {f : Form} {t : Option Ty} {rest : List Stmt} {b : Block} {c : Expr}
    {more : Else}

theorem Expr.form_of_canRender (h : e.canRender target sc = true) :
    ∃ f, e.form target sc = .ok f := by
  rw [canRender] at h
  cases hf : e.form target sc with
  | ok f => exact ⟨f, rfl⟩
  | error => rw [hf] at h; cases h

theorem Expr.act_eq {σ V : Type} {I : Interpretation σ V} {env : Env V}
    (h : e.form target sc = .ok f) : e.act target I sc env = f.eval I env := by
  rw [act, h]

theorem Stmt.forms_let {n : Ident} (p : Pos) (rest : List Stmt) (h : e.form target sc = .ok f) :
    forms target sc (.letDecl p n t e :: rest) =
      match rest with
      | [] => .ok [letForm n f none]
      | _ :: _ => (fun fs => [letForm n f (some (Form.sequence fs))]) <$>
          forms target (sc.bind n (t.or (e.knownType sc))) rest := by
  rw [forms.eq_def]
  simp only [h]
  cases rest with
  | nil | cons r rest => rfl

theorem Stmt.forms_step (hst : forms target sc (st :: rest) =
      st.form target sc >>= fun f => forms target sc rest >>= fun fs => pure (f :: fs))
    (h : st.form target sc = .ok f) :
    forms target sc (st :: rest) = (f :: ·) <$> forms target sc rest := by
  rw [hst, h]
  cases forms target sc rest <;> rfl

theorem Stmt.forms_if_open (p : Pos) (r : Stmt) (rest : List Stmt) (h : more.isOpen = true) :
    forms target sc (.ifStmt p c b more :: r :: rest) = (fun f => [f]) <$> Else.form target sc
        (Form.sequence <$> forms target sc (r :: rest)) (.elseIf c b more) := by
  rw [forms.eq_def, Else.form]
  simp only [h, ↓reduceIte]
  cases c.form target sc with
  | error => rfl
  | ok f =>
    cases b.form target sc with
    | error => rfl
    | ok g =>
      cases Else.form target sc (Form.sequence <$> forms target sc (r :: rest)) more <;> rfl

theorem Stmt.forms_if_closed (p : Pos) (rest : List Stmt) (h : more.isOpen = false) :
    forms target sc (.ifStmt p c b more :: rest) = do
      let f ← Else.form target sc (.error ⟨.ifWithoutElse, p⟩) (.elseIf c b more)
      let fs ← forms target sc rest return f :: fs := by
  rw [forms.eq_def, Else.form]
  simp only [h]
  cases c.form target sc with
  | error => rfl
  | ok f =>
    cases b.form target sc with
    | error => rfl
    | ok g =>
      cases Else.form target sc (.error ⟨.ifWithoutElse, p⟩) more <;> rfl

/-! ### Plain statements -/

variable (target) in
/-- The statements have forms, and these in order do and answer what the statements do and answer
as one expression. -/
def Stmt.HaveForms (ss : List Stmt) : Prop :=
  ∀ sc : Scope, Stmt.arePlain true true ss = true → Stmt.canRender target sc ss = true →
    ∃ fs, Stmt.forms target sc ss = .ok fs ∧ fs.isEmpty = ss.isEmpty ∧
      ∀ {σ V : Type} (I : Interpretation σ V) (env : Env V),
        I.inOrder (fs.map (·.eval I env)) = Stmt.nested target I sc env I.unit ss

variable (target) in
/-- The chain has a form, given one for what has `fallen` through where some case is not covered. -/
def Else.HasForm (more : Else) : Prop :=
  ∀ (sc : Scope) (fallen : Except Fault Form),
    more.isPlain true true = true → more.canRender target sc = true →
    (more.isOpen = true → ∃ g, fallen = .ok g) →
    ∃ f, more.form target sc fallen = .ok f ∧
      ∀ {σ V : Type} (I : Interpretation σ V) (env : Env V) (k : StateM σ V),
        (∀ g, fallen = .ok g → g.eval I env = k) →
          f.eval I env = more.nested target I sc env k

theorem Block.form_eq (b : Block) :
    b.form target sc = Form.sequence <$> Stmt.forms target sc b.statements := by
  cases b with
  | mk p ss =>
    cases Stmt.forms target sc ss <;> rfl

theorem Stmt.HaveForms.block (h : HaveForms target b.statements)
    (hp : b.isPlain true true = true) (hr : b.canRender target sc = true) :
    ∃ f, b.form target sc = .ok f ∧ ∀ {σ V : Type} (I : Interpretation σ V) (env : Env V),
        f.eval I env = b.nested target I sc env := by
  rw [Block.isPlain_eq] at hp
  rw [Block.canRender_eq] at hr
  obtain ⟨fs, hfs, -, heval⟩ := h sc hp hr
  refine ⟨Form.sequence fs, by rw [Block.form_eq, hfs]; rfl, fun I env => ?_⟩
  rw [Form.eval_sequence, heval, Block.nested_eq]

theorem Stmt.haveForms_step (ih : HaveForms target rest) (f : Form)
    (hf : forms target sc (st :: rest) = (f :: ·) <$> forms target sc rest)
    (hn : ∀ {σ V : Type} (I : Interpretation σ V) (env : Env V),
      nested target I sc env I.unit (st :: rest) =
        f.eval I env >>= fun v => nested target I sc env v rest)
    (hp : arePlain true true rest = true) (hr : canRender target sc rest = true) :
    ∃ fs, forms target sc (st :: rest) = .ok fs ∧ fs.isEmpty = (st :: rest).isEmpty ∧
      ∀ {σ V : Type} (I : Interpretation σ V) (env : Env V),
        I.inOrder (fs.map (·.eval I env)) = nested target I sc env I.unit (st :: rest) := by
  obtain ⟨fs, hfs, he, heval⟩ := ih sc hp hr
  refine ⟨f :: fs, by rw [hf, hfs]; rfl, rfl, fun I env => ?_⟩
  rw [hn, List.map_cons, inOrder_cons_eq_nested he (heval I env)]

theorem Stmt.haveForms_let {n : Ident} (p : Pos)
    (ih : HaveForms target rest) : HaveForms target (.letDecl p n t e :: rest) := by
  intro sc hp hr
  have hp' : arePlain true true rest = true := by simpa [arePlain, isPlain] using hp
  obtain ⟨he, hr'⟩ : e.canRender target sc = true ∧
      canRender target (sc.bind n (t.or (e.knownType sc))) rest = true := by
    simpa [canRender] using hr
  obtain ⟨f, hf⟩ := Expr.form_of_canRender he
  obtain ⟨fs, hfs, hempty, heval⟩ := ih _ hp' hr'
  rw [forms_let p rest hf]
  cases rest with
  | nil =>
    refine ⟨[letForm n f none], rfl, rfl, fun I env => ?_⟩
    rw [nested, Expr.act_eq hf]
    exact (eval_letForm_none I env n f).trans (bind_pure _).symm
  | cons r rest =>
    refine ⟨[letForm n f (some (Form.sequence fs))], by simp only [hfs]; rfl, rfl, fun I env => ?_⟩
    rw [nested, Expr.act_eq hf]
    refine (eval_letForm_some I env n f _).trans ?_
    congr 1
    funext v
    rw [Form.eval_sequence, heval]
    exact nested_last _ _ (by simp)

theorem Stmt.haveForms_if (p : Pos)
    (ihc : Else.HasForm target (.elseIf c b more)) (ih : HaveForms target rest) :
    HaveForms target (.ifStmt p c b more :: rest) := by
  intro sc hp hr
  obtain ⟨⟨⟨ho, hpb⟩, hpm⟩, hp'⟩ : (((more.isOpen = false ∨ rest ≠ []) ∧
      b.isPlain true true = true) ∧ more.isPlain true true = true) ∧
        arePlain true true rest = true := by
    simpa [arePlain] using hp
  obtain ⟨⟨⟨hc, hrb⟩, hrm⟩, hr'⟩ : ((c.canRender target sc = true ∧ b.canRender target sc = true) ∧
      more.canRender target sc = true) ∧ canRender target sc rest = true := by
    simpa [canRender] using hr
  have hpe : (Else.elseIf c b more).isPlain true true = true := by simp [Else.isPlain, hpb, hpm]
  have hre : (Else.elseIf c b more).canRender target sc = true := by
    simp [Else.canRender, hc, hrb, hrm]
  cases hopen : more.isOpen with
  | true =>
    -- the forms of what follows go into the chain, so one form is left
    obtain ⟨r, rest, rfl⟩ := List.exists_cons_of_ne_nil (ho.resolve_left (by simp [hopen]))
    obtain ⟨fs, hfs, -, heval⟩ := ih sc hp' hr'
    obtain ⟨f, hf, hfeval⟩ := ihc sc (.ok (Form.sequence fs)) hpe hre fun _ => ⟨_, rfl⟩
    refine ⟨[f], ?_, rfl, fun I env => ?_⟩
    · rw [forms_if_open p r rest hopen, hfs]
      exact congrArg _ hf
    · rw [nested_if_open _ p _ hopen]
      refine hfeval I env _ fun g hg => ?_
      cases hg
      rw [Form.eval_sequence, heval]
  | false =>
    -- nothing falls through, so the fault that stands for it is not met
    obtain ⟨f, hf, hfeval⟩ := ihc sc (.error ⟨.ifWithoutElse, p⟩) hpe hre fun h => by
      simp [Else.isOpen, hopen] at h
    refine haveForms_step ih f ?_ (fun I env => ?_) hp' hr'
    · rw [forms_if_closed p rest hopen, hf]
      cases Stmt.forms target sc rest <;> rfl
    · rw [nested_if_closed _ p rest hopen, hfeval I env _ (by simp)]

theorem Stmt.hereditary_haveForms : Hereditary (HaveForms target) (Else.HasForm target) where
  nil _ _ _ := ⟨[], rfl, rfl, fun _ _ => rfl⟩
  letDecl p _ _ _ _ ih := haveForms_let p ih
  constDecl p _ _ _ _ ih := haveForms_let p ih
  exprStmt := by
    intro p e rest ih sc hp hr
    have hp' : arePlain true true rest = true := by
      simpa [arePlain, isPlain] using hp
    obtain ⟨he, hr'⟩ : e.canRender target sc = true ∧ canRender target sc rest = true := by
      simpa [canRender] using hr
    obtain ⟨f, hf⟩ := Expr.form_of_canRender he
    refine haveForms_step ih f (forms_step rfl hf) (fun I env => ?_) hp' hr'
    rw [nested, Expr.act_eq hf]
  returnStmt := by
    intro p e rest ih sc hp hr
    have hp' : arePlain true true rest = true := by simpa [arePlain] using hp
    obtain ⟨he, hr'⟩ : e.all (·.canRender target sc) = true ∧
        canRender target sc rest = true := by
      simpa [canRender] using hr
    cases e with
    | none =>
      refine haveForms_step ih Form.unit (forms_step rfl rfl) (fun I env => ?_) hp' hr'
      rw [nested, actOrUnit, Form.eval_unit]
    | some e =>
      obtain ⟨f, hf⟩ := Expr.form_of_canRender he
      refine haveForms_step ih f (forms_step rfl hf) (fun I env => ?_) hp' hr'
      rw [nested, actOrUnit, Expr.act_eq hf]
  ifStmt p _ _ _ _ ihc ih := haveForms_if p ihc ih
  other := by
    intro st rest hst _ sc hp
    rw [arePlain_other rest hst] at hp
    cases hp
  absent := by
    intro sc fallen _ _ hfallen
    obtain ⟨g, rfl⟩ := hfallen rfl
    exact ⟨g, rfl, fun I env k hk => hk g rfl⟩
  final := by
    intro b ih sc fallen hp hr _
    obtain ⟨f, hf, heval⟩ := ih.block hp hr
    exact ⟨f, hf, fun I env _ _ => heval I env⟩
  elseIf := by
    intro c b rest ihb ihr sc fallen hp hr hfallen
    obtain ⟨hpb, hpr⟩ : b.isPlain true true = true ∧ rest.isPlain true true = true := by
      simpa [Else.isPlain] using hp
    obtain ⟨⟨hc, hrb⟩, hrr⟩ : (c.canRender target sc = true ∧ b.canRender target sc = true) ∧
        rest.canRender target sc = true := by
      simpa [Else.canRender] using hr
    obtain ⟨f, hf⟩ := Expr.form_of_canRender hc
    obtain ⟨g, hg, hgeval⟩ := ihb.block hpb hrb
    obtain ⟨h, hh, hheval⟩ := ihr sc fallen hpr hrr hfallen
    refine ⟨stack [atom "if", f] [g, h], by rw [Else.form, hf, hg, hh]; rfl, fun I env k hk => ?_⟩
    rw [Form.eval_if, Else.nested, Expr.act_eq hf, hgeval, hheval I env k hk]

/-- **Plain statements render whenever their expressions do, and the form does and answers what the
block does and answers as one expression.** -/
theorem Block.form_eq_nested (hp : b.isPlain true true = true) (hr : b.canRender target sc = true) :
    ∃ f, b.form target sc = .ok f ∧ ∀ {σ V : Type} (I : Interpretation σ V) (env : Env V),
        f.eval I env = b.nested target I sc env :=
  (Stmt.hereditary_haveForms.block b).block hp hr

/-! ### Chains without a last branch -/

section

variable (target) {σ V : Type} (I : Interpretation σ V)

/-- The block of the first branch whose condition holds.  The conditions are evaluated in order, up
to that one. -/
def Else.pick (sc : Scope) (env : Env V) : Else → StateM σ (Option Block)
  | .absent => pure none
  | .final b => pure (some b)
  | .elseIf c b rest => I.branch (c.act target I sc env) (pure (some b)) (Else.pick sc env rest)

theorem Else.nested_eq_pick (sc : Scope) (env : Env V) (fallen : StateM σ V) (more : Else) :
    more.nested target I sc env fallen =
      more.pick target I sc env >>= fun taken => taken.elim fallen (·.nested target I sc env) := by
  fun_induction pick target I sc env more with
  | case1 | case2 => rfl
  | case3 c b rest ih =>
    rw [nested, branch_bind, ih]
    rfl

end

/-- **What follows a chain without a last branch runs only when no condition of it holds.**  The
conditions are evaluated in order up to the first that holds; then comes its branch alone, or else
what follows.  A run of the language that does not stray is kept: without returns, one in which no
branch of such a chain runs on into what follows. -/
theorem Block.eval_open_chain {sc : Scope} {whole b : Block} {p : Pos} {c : Expr} {more : Else}
    {rest : List Stmt} (hw : whole.statements = .ifStmt p c b more :: rest)
    (ho : more.isOpen = true) (hp : whole.isPlain true true = true)
    (hr : whole.canRender target sc = true) :
    ∃ f, whole.form target sc = .ok f ∧
      ∀ {σ V : Type} (I : Interpretation σ V) (env : Env V),
        (f.eval I env = (Else.elseIf c b more).pick target I sc env >>= fun taken =>
          taken.elim (Stmt.nested target I sc env I.unit rest) (·.nested target I sc env)) ∧
        ∀ s, (whole.run target I sc env s).1.strays = false →
          f.eval I env s =
            ((whole.run target I sc env s).1.value, (whole.run target I sc env s).2) := by
  obtain ⟨f, hf, heval⟩ := Block.form_eq_nested hp hr
  refine ⟨f, hf, fun I env => ⟨?_, fun s hs => ?_⟩⟩
  · rw [heval, Block.nested_eq, hw, Stmt.nested_if_open _ p rest ho, Else.nested_eq_pick]
  · rw [heval]
    exact Block.nested_eq_run target I rfl hs

/-! ### A chain that loses what follows -/

/-- Every form is true, and all that happens is that its name is noted. -/
def Interpretation.log : Interpretation (List Bytes) Bool where
  act f _ := modifyGet fun log => (true, log ++ [match f with | .atom name => name | _ => []])
  holds v := v
  unit := false

def Expr.ofName (name : String) : Expr :=
  .ident ⟨name, {}⟩

def openChain : Block :=
  .mk {} [.ifStmt {} (.ofName "c") (.mk {} [.exprStmt {} (.ofName "a")]) .absent,
    .exprStmt {} (.ofName "b")]

theorem openChain_eval : ∃ f, openChain.form Target.default [] = .ok f ∧
    f.eval .log (fun _ => none) [] = (true, [Bytes.ofString "c", "a"]) := by
  obtain ⟨f, hf, h⟩ : ∃ f, openChain.form Target.default [] = .ok f ∧ _ :=
    Block.eval_open_chain rfl rfl (by decide) (by decide)
  refine ⟨f, hf, ?_⟩
  rw [(h .log fun _ => none).1]
  rfl

/-- Where `c` holds, `b` does not run. -/
theorem openChain_leaves_out_rest :
    openChain.isPlain false true = true ∧
    (∃ f, openChain.form Target.default [] = .ok f ∧
      (f.eval .log (fun _ => none) []).2 = [Bytes.ofString "c", "a"]) ∧
    (openChain.run Target.default .log [] (fun _ => none) []).2 =
      [Bytes.ofString "c", "a", "b"] := by
  refine ⟨by decide, ⟨_, rfl, ?_⟩, ?_⟩
  · decide
  · decide

end Covenant
