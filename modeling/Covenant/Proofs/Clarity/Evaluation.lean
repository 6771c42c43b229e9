import Covenant.Clarity.Value

/-!
# Evaluating forms

Clarity has no statements: a form has a value, and what it does on the way are its effects.  Three
forms order the effects of others, and they are read here as in Clarity.

Everything else is left to an `Interpretation`: it says what any other form does and answers, given
the names in force.  Effects are changes of a state of any type.  With a log for a state, two
evaluations end in the same state iff they did the same in the same order; and an evaluation that
is broken off is one that reaches a state which nothing changes any more.
-/

namespace Covenant

open List
open Bytes (ofString)

open Form (atom row pair stack)

abbrev Env (V : Type) := Bytes → Option V

def Env.bind {V : Type} (env : Env V) (name : Bytes) (v : V) : Env V :=
  fun n => if n = name then some v else env n

/-- What forms do and answer, but for those that order the effects of others. -/
structure Interpretation (σ V : Type) where
  /-- The effect and the value of a form under the names in force. -/
  act : Form → Env V → StateM σ V
  holds : V → Bool
  unit : V

namespace Interpretation

variable {σ V α : Type} (I : Interpretation σ V)

def inOrder : List (StateM σ V) → StateM σ V
  | [] => pure I.unit
  | [a] => a
  | a :: b :: rest => do
    let _ ← a
    inOrder (b :: rest)

def branch (c : StateM σ V) (yes no : StateM σ α) : StateM σ α := do
  if I.holds (← c) then yes else no

end Interpretation

/-! ### Effects from a state -/

section

variable {σ V α β : Type}

theorem bind_apply (x : StateM σ α) (f : α → StateM σ β) (s : σ) :
    (x >>= f) s = f (x s).1 (x s).2 := rfl

theorem map_apply (f : α → β) (x : StateM σ α) (s : σ) : (f <$> x) s = (f (x s).1, (x s).2) := rfl

section

variable (I : Interpretation σ V) (c : StateM σ V) (yes no : StateM σ α)

theorem branch_apply (s : σ) :
    I.branch c yes no s = if I.holds (c s).1 then yes (c s).2 else no (c s).2 := by
  rw [Interpretation.branch, bind_apply]
  split <;> rfl

theorem branch_bind (f : α → StateM σ β) :
    I.branch c yes no >>= f = I.branch c (yes >>= f) (no >>= f) := by
  funext s
  rw [bind_apply, branch_apply, branch_apply]
  split <;> rfl

end

end

variable {σ V : Type} (I : Interpretation σ V)

/-! ### Forms -/

namespace Form

mutual

def eval : Form → Env V → StateM σ V
  | .atom name, env =>
    match env name with
    | some v => pure v
    | none => I.act (.atom name) env
  | .list [], _ => pure I.unit
  | .list ((g, .atom word) :: args), env =>
    if word = Bytes.ofString "begin" then I.inOrder (evalAll args env)
    else if word = Bytes.ofString "if" then
      match evalAll args env with
      | [c, yes, no] => I.branch c yes no
      | _ => I.act (.list ((g, .atom word) :: args)) env
    else if word = Bytes.ofString "let" then evalLet args env
    else I.act (.list ((g, .atom word) :: args)) env
  | f, env => I.act f env

def evalLet : List (Gap × Form) → Env V → StateM σ V
  | [(_, .list [(_, .list [(_, .atom name), (_, value)])]), (_, body)], env => do
    let v ← eval value env
    eval body (env.bind name v)
  | args, env => I.act (.list ((.glued, .atom "let") :: args)) env

def evalAll : List (Gap × Form) → Env V → List (StateM σ V)
  | [], _ => []
  | (_, f) :: items, env => eval f env :: evalAll items env

end

variable (env : Env V)

theorem evalAll_eq_map (items : List (Gap × Form)) :
    evalAll I items env = items.map fun item => item.2.eval I env := by
  induction items with
  | nil => rfl
  | cons item items ih => rw [evalAll, ih, map_cons]

theorem eval_unit : unit.eval I env = pure I.unit := by rw [unit, eval]

theorem eval_begin (fs : List Form) :
    (stack [atom "begin"] fs).eval I env = I.inOrder (fs.map (·.eval I env)) := by
  simp only [stack, items, map_nil, cons_append, nil_append]
  rw [eval, if_pos rfl, evalAll_eq_map, map_map]
  rfl

theorem eval_if (c yes no : Form) : (stack [atom "if", c] [yes, no]).eval I env =
      I.branch (c.eval I env) (yes.eval I env) (no.eval I env) := by
  simp only [stack, items, map_nil, map_cons, cons_append, nil_append]
  rfl

theorem eval_let (g₁ g₂ g₃ g₄ g₅ g₆ : Gap) (name : Bytes) (value body : Form) :
    (list [(g₁, atom "let"), (g₂, .list [(g₃, .list [(g₄, atom name), (g₅, value)])]),
      (g₆, body)]).eval I env = value.eval I env >>= fun v => body.eval I (env.bind name v) := by
  have hb : ofString "let" ≠ ofString "begin" := by decide
  have hi : ofString "let" ≠ ofString "if" := by decide
  rw [eval, if_neg hb, if_neg hi, if_pos rfl, evalLet]

theorem eval_sequence (fs : List Form) :
    (sequence fs).eval I env = I.inOrder (fs.map (·.eval I env)) := by
  match fs with
  | [] => exact eval_unit I env
  | [f] => rfl
  | f :: g :: fs => exact eval_begin I env (f :: g :: fs)

end Form

theorem eval_letForm_some (env : Env V) (name : Ident) (value body : Form) :
    (letForm name value (some body)).eval I env =
      value.eval I env >>= fun v => body.eval I (env.bind name.name v) :=
  Form.eval_let ..

theorem eval_letForm_none (env : Env V) (name : Ident) (value : Form) :
    (letForm name value none).eval I env = value.eval I env := by
  have h : (letForm name value none).eval I env =
      value.eval I env >>= fun v => (Form.atom name.name).eval I (env.bind name.name v) :=
    Form.eval_let ..
  rw [h]
  simp only [Form.eval, Env.bind, ↓reduceIte, bind_pure]

end Covenant
