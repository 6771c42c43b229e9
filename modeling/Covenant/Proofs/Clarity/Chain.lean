import Covenant.Proofs.Clarity.Sequence
import Covenant.Proofs.Program.Parts
import Covenant.Proofs.Result

/-!
# Chains of conditionals

Clarity has conditionals with two branches and nothing like `else if`.  A chain is written as
conditionals within each other, one level deeper with every branch, and what follows a chain without
a last branch is written as that branch.
-/

namespace Covenant

open List Block

open Form (atom stack indent)

/-! ### Conditionals within each other -/

namespace Form

/-- Conditionals within each other: every branch with its condition, and what is left. -/
def nested (branches : List (Form × Form)) (otherwise : Form) : Form :=
  branches.foldr (fun b no => stack [atom "if", b.1] [b.2, no]) otherwise

def printBranches (depth : Nat) : List (Form × Form) → Bytes
  | [] => []
  | (c, b) :: more =>
    "(if " ++ c.print depth ++ "\n" ++ indent (depth + 1) ++ b.print (depth + 1) ++
      "\n" ++ indent (depth + 1) ++ printBranches (depth + 1) more

theorem print_if (depth : Nat) (c yes no : Form) : (stack [atom "if", c] [yes, no]).print depth =
      "(if " ++ c.print depth ++ "\n" ++ indent (depth + 1) ++ yes.print (depth + 1) ++
        "\n" ++ indent (depth + 1) ++ no.print (depth + 1) ++ ")" := by
  have hhead : Bytes.ofString "(if " =
      Bytes.ofString "(" ++ (Bytes.ofString "if" ++ Bytes.ofString " ") := by decide
  simp [stack, items, print, printItems, hhead]

theorem replicate_succ_close (n : Nat) :
    Bytes.replicate (n + 1) ")" = Bytes.replicate n ")" ++ Bytes.ofString ")" := by
  rw [Bytes.replicate, replicate_succ', flatten_append, ← Bytes.replicate]
  rfl

/-- **Conditionals within each other close together**, with one parenthesis for each. -/
theorem print_nested (branches : List (Form × Form)) (otherwise : Form) (depth : Nat) :
    (nested branches otherwise).print depth =
      printBranches depth branches ++ otherwise.print (depth + branches.length) ++
        Bytes.replicate branches.length ")" := by
  induction branches generalizing depth with
  | nil => simp [nested, printBranches, Bytes.replicate]
  | cons b more ih =>
    have hdepth : depth + 1 + more.length = depth + (more.length + 1) := by omega
    rw [nested, foldr_cons, print_if, ← nested, ih, printBranches, length_cons,
      replicate_succ_close, hdepth]
    simp only [append_assoc]

end Form

/-! ### Branches -/

namespace Else

def branches : Else → List (Expr × Block)
  | .absent | .final _ => []
  | .elseIf c b rest => (c, b) :: rest.branches

def last? : Else → Option Block
  | .absent => none
  | .final b => some b
  | .elseIf _ _ rest => rest.last?

def closedBy (last : Block) : Else → Else
  | .absent => .final last
  | .final b => .final b
  | .elseIf c b rest => .elseIf c b (rest.closedBy last)

theorem isOpen_eq_false_of_last? {last : Block} (more : Else) (h : more.last? = some last) :
    more.isOpen = false := by
  induction more using induction_branches with
  | absent => cases h
  | final b => rfl
  | elseIf c b rest ih => exact ih h

theorem isOpen_closedBy (last : Block) (more : Else) : (more.closedBy last).isOpen = false := by
  induction more using induction_branches with
  | absent | final b => rfl
  | elseIf c b rest ih => exact ih

theorem form_of_isOpen_eq_false (fallen fallen' : Except Fault Form) (more : Else)
    (h : more.isOpen = false) : more.form target sc fallen = more.form target sc fallen' := by
  induction more using induction_branches with
  | absent => cases h
  | final b => rw [form, form]
  | elseIf c b rest ih => rw [form, form, ih h]

theorem form_closedBy (last : Block) (fallen : Except Fault Form) (more : Else) :
    (more.closedBy last).form target sc fallen = more.form target sc (last.form target sc) := by
  induction more using induction_branches with
  | absent | final b => rw [closedBy, form, form]
  | elseIf c b rest ih => rw [closedBy, form, form, ih]

end Else

variable (target sc) in
def branchForms (branch : Expr × Block) : Except Fault (Form × Form) :=
  return (← branch.1.form target sc, ← branch.2.form target sc)

/-- The form of further branches. -/
theorem Else.form_eq_nested {last : Block} (more : Else) (h : more.last? = some last)
    (fallen : Except Fault Form) : more.form target sc fallen = do
      let branches ← more.branches.mapM (branchForms target sc) let otherwise ← last.form target sc
      return Form.nested branches otherwise := by
  induction more using induction_branches with
  | absent => cases h
  | final b =>
    cases h
    simp [form, Else.branches, Form.nested]
  | elseIf c b rest ih => simp [form, Else.branches, branchForms, ih h, Form.nested]

theorem length_of_mapM {α β : Type} {f : α → Except Fault β} {as : List α} {bs : List β}
    (h : as.mapM f = .ok bs) : bs.length = as.length := by
  induction as generalizing bs with
  | nil =>
    cases h
    rfl
  | cons a as ih =>
    rw [mapM_cons] at h
    obtain ⟨b, -, h⟩ := of_bind_eq_ok h
    obtain ⟨bs, hbs, h⟩ := of_bind_eq_ok h
    cases h
    rw [length_cons, length_cons, ih hbs]

/-! ### Places in a block -/

theorem Stmt.forms_append_congr (hss : ss ≠ []) (hss' : ss' ≠ [])
    (h : ∀ sc : Scope, forms target sc ss = forms target sc ss') (before : List Stmt) :
    ∀ sc : Scope, forms target sc (before ++ ss) = forms target sc (before ++ ss') := by
  induction before with
  | nil => exact h
  | cons s before ih =>
    intro sc
    -- whether something follows matters to bindings and to chains
    obtain ⟨r, rest, hr⟩ : ∃ r rest, before ++ ss = r :: rest :=
      exists_cons_of_ne_nil (by simp [hss])
    obtain ⟨r', rest', hr'⟩ : ∃ r' rest', before ++ ss' = r' :: rest' :=
      exists_cons_of_ne_nil (by simp [hss'])
    rw [hr, hr'] at ih
    rw [cons_append, cons_append, hr, hr']
    cases s <;> simp only [forms, ih]

theorem Block.form_if_alone (p q : Pos) (c : Expr) (b : Block)
    (h : more.isOpen = false) (fallen : Except Fault Form) :
    (mk q [.ifStmt p c b more]).form target sc =
      (Else.elseIf c b more).form target sc fallen := by
  rw [form_eq, statements, Stmt.forms_if_closed p [] h,
    Else.form_of_isOpen_eq_false _ fallen (.elseIf c b more) h]
  cases (Else.elseIf c b more).form target sc fallen <;> rfl

theorem Stmt.forms_elseIf (p q r : Pos) (c c' : Expr) (b b' : Block)
    (h : more.isOpen = false) (after : List Stmt) :
    forms target sc (.ifStmt p c b (.elseIf c' b' more) :: after) =
      forms target sc (.ifStmt p c b (.final (.mk q [.ifStmt r c' b' more])) :: after) := by
  have hopen : (Else.elseIf c' b' more).isOpen = false := h
  have hchain (fallen : Except Fault Form) :
      (Else.elseIf c b (.elseIf c' b' more)).form target sc fallen =
        (Else.elseIf c b (.final (.mk q [.ifStmt r c' b' more]))).form target sc fallen := by
    rw [Else.form, Else.form.eq_3 _ _ _ _ _ (.final _), Else.form.eq_2,
      form_if_alone r q c' b' h fallen]
  rw [forms_if_closed p after hopen, forms_if_closed p after rfl, hchain]

theorem Stmt.forms_closedBy (p q : Pos) (c : Expr) (b : Block)
    (h : more.isOpen = true) {rest : List Stmt} (hrest : rest ≠ []) :
    forms target sc (.ifStmt p c b more :: rest) =
      forms target sc [.ifStmt p c b (more.closedBy (.mk q rest))] := by
  obtain ⟨r, rest, rfl⟩ := exists_cons_of_ne_nil hrest
  have hlast : (mk q (r :: rest)).form target sc =
      Form.sequence <$> forms target sc (r :: rest) := form_eq _
  rw [forms_if_open p r rest h, ← hlast, forms_if_closed p [] (Else.isOpen_closedBy _ more),
    ← Else.form_closedBy (.mk q (r :: rest)) (.error ⟨.ifWithoutElse, p⟩), Else.closedBy]
  cases Else.form target sc _ (.elseIf c b (more.closedBy (.mk q (r :: rest)))) <;> rfl

/-! ### Texts -/

variable (target sc) in
def Block.text (depth : Nat) (b : Block) : Except Fault Bytes :=
  (·.print depth) <$> b.form target sc

theorem Block.text_congr
    (h : Stmt.forms target sc ss = Stmt.forms target sc ss') (depth : Nat) (p : Pos) :
    (mk p ss).text target sc depth = (mk p ss').text target sc depth := by
  rw [text, text, form_eq, form_eq, statements, statements, h]

/-- **Chains of conditionals are shorthand.**  At any place of a block, in every scope and at every
depth: a further branch is written like a conditional that stands alone in the last branch, and what
follows a chain without a last branch is written like that branch.  So a chain with a last branch is
written as conditionals within each other, one for each condition, which close together. -/
theorem Block.text_chain (target : Version) (sc : Scope) (depth : Nat) (before : List Stmt)
    (p q r s : Pos) (c : Expr) (b : Block) :
    (∀ (c' : Expr) (b' : Block) (more : Else) (after : List Stmt), more.isOpen = false →
      (mk q (before ++ .ifStmt p c b (.elseIf c' b' more) :: after)).text target sc depth =
        (mk q (before ++ .ifStmt p c b (.final (.mk r [.ifStmt s c' b' more])) :: after)).text
          target sc depth) ∧
    (∀ (more : Else) (rest : List Stmt), more.isOpen = true → rest ≠ [] →
      (mk q (before ++ .ifStmt p c b more :: rest)).text target sc depth =
        (mk q (before ++ [.ifStmt p c b (more.closedBy (.mk r rest))])).text
          target sc depth) ∧
    ∀ (more : Else) (last : Block), more.last? = some last →
      (mk q [.ifStmt p c b more]).text target sc depth = do
        let branches ← ((c, b) :: more.branches).mapM (branchForms target sc)
        let otherwise ← last.form target sc
        return Form.printBranches depth branches ++
          otherwise.print (depth + (more.branches.length + 1)) ++
          Bytes.replicate (more.branches.length + 1) ")" := by
  refine ⟨fun c' b' more after h => ?_, fun more rest h hrest => ?_, fun more last h => ?_⟩
  · refine text_congr
      (Stmt.forms_append_congr (by simp) (by simp) (fun sc => ?_) before sc) _ _
    exact Stmt.forms_elseIf p r s c c' b b' h after
  · refine text_congr
      (Stmt.forms_append_congr (by simp) (by simp) (fun sc => ?_) before sc) _ _
    exact Stmt.forms_closedBy p r c b h hrest
  · -- the statement is one branch more of the same chain
    have hopen := Else.isOpen_eq_false_of_last? more h
    rw [text, form_if_alone p q c b hopen (.error ⟨.ifWithoutElse, p⟩),
      Else.form_eq_nested (.elseIf c b more) h, Else.branches]
    cases hm : ((c, b) :: more.branches).mapM (branchForms target sc) with
    | error => rfl
    | ok branches =>
      rw [← length_cons (a := (c, b)), ← length_of_mapM hm]
      cases last.form target sc with
      | error => rfl
      | ok otherwise => exact congrArg Except.ok (Form.print_nested branches otherwise depth)

def Block.ofName (name : String) : Block :=
  .mk {} [.exprStmt {} (.ofName name)]

def Else.openBranch : Else :=
  .elseIf (.ofName "d") (.ofName "b") .absent

theorem Block.text_chain_openBranch :
    (mk {} [.exprStmt {} (.ofName "s"), .ifStmt {} (.ofName "c") (.ofName "a") .openBranch,
        .exprStmt {} (.ofName "e")]).text Target.default [] 0 =
      .ok "(begin\n  s\n  (if c\n    a\n    (if d\n      b\n      e)))" ∧
    (mk {} [.exprStmt {} (.ofName "s"), .ifStmt {} (.ofName "c") (.ofName "a")
        (.final (.mk {} [.ifStmt {} (.ofName "d") (.ofName "b") (.final (.ofName "e"))]))]).text
          Target.default [] 0 =
      .ok "(begin\n  s\n  (if c\n    a\n    (if d\n      b\n      e)))" ∧
    (mk {} [.ifStmt {} (.ofName "c") (.ofName "a")
        (.elseIf (.ofName "d") (.ofName "b") (.final (.ofName "e")))]).text Target.default [] 1 =
      .ok ("(if c\n    a\n    (if d\n      b\n      " ++ Bytes.ofString "e" ++
        Bytes.replicate 2 ")") := by
  have h := text_chain Target.default [] 0 [.exprStmt {} (.ofName "s")] {} {} {} {}
    (.ofName "c") (.ofName "a")
  have hbranches := h.1 (.ofName "d") (.ofName "b") (.final (.ofName "e")) [] rfl
  have hrest := h.2.1 .openBranch [.exprStmt {} (.ofName "e")] rfl (by simp)
  have hnested := (text_chain Target.default [] 1 [] {} {} {} {} (.ofName "c")
    (.ofName "a")).2.2 (.elseIf (.ofName "d") (.ofName "b") (.final (.ofName "e"))) _ rfl
  exact ⟨hrest.trans rfl, hbranches.symm.trans rfl, hnested.trans rfl⟩

end Covenant
