import Covenant.Proofs.Program.Parts

/-!
# Induction over the parts of a program

Expressions, blocks, statements and the rest contain each other.  A part right below another one
weighs less; so what follows for a part from the same throughout the parts below holds everywhere.
-/

namespace Covenant

open List

/-! ### Weights -/

/-- What the induction over parts goes down on.  A name that is a type weighs as much as the type
without the last summand. -/
noncomputable def Node.weight (n : Node) : Nat :=
  2 * sizeOf n + match n with
    | .expr (.ident _) => 0
    | _ => 1

theorem Node.weight_lt {m n : Node} (h : sizeOf m < sizeOf n) : m.weight < n.weight := by
  unfold weight
  split <;> split <;> omega

theorem sizeOf_pos_pos (p : Pos) : 0 < sizeOf p := by
  cases p
  simp only [Pos.mk.sizeOf_spec]
  omega

@[grind =] theorem Ident.sizeOf_node (n : Ident) : sizeOf n.node = sizeOf n + 2 := by
  rw [node, Node.expr.sizeOf_spec, Expr.ident.sizeOf_spec]
  omega

theorem Expr.sizeOf_le_of_mem_children {e : Expr} (h : c ∈ e.children) : sizeOf c ≤ sizeOf e := by
  have hpos := sizeOf_pos_pos
  cases e with
  | ident | literal | principal | noneLit => cases h
  | comprehension p e x l c' => cases c' <;> simp [children] at h ⊢ <;> grind
  | lambda p ps body =>
    cases body <;> simp [children, Body.node] at h ⊢ <;> grind [→ sizeOf_lt_of_mem]
  | _ =>
    simp [children] at h ⊢
    grind [→ sizeOf_lt_of_mem]

@[grind →] theorem Ty.sizeOf_le_of_mem_optionalNode (h : c ∈ optionalNode t) :
    sizeOf c ≤ sizeOf t := by
  cases t <;> simp_all [optionalNode]

@[grind →] theorem Decorator.sizeOf_le_of_mem_children (h : c ∈ children ds) :
    sizeOf c ≤ sizeOf ds := by
  obtain ⟨d, hd, hc⟩ := mem_filterMap.1 h
  have := sizeOf_lt_of_mem hd
  obtain ⟨p, name, a⟩ := d
  obtain rfl : a = some c := hc
  simp only [Decorator.mk.sizeOf_spec, Option.some.sizeOf_spec] at this
  omega

@[grind →] theorem MapShape.sizeOf_le_of_mem_children {m : MapShape} (h : c ∈ m.children) :
    sizeOf c ≤ sizeOf m := by
  have := sizeOf_pos_pos m.pos
  cases m
  simp [children] at h ⊢
  grind

@[grind →] theorem Else.sizeOf_le_of_mem_children {c : Node} {e : Else} (h : c ∈ e.children) :
    sizeOf c ≤ sizeOf e := by
  cases e with
  | elseIf c' b rest =>
    have hrest : c ∈ rest.children → sizeOf c ≤ sizeOf rest := sizeOf_le_of_mem_children
    simp [children] at h ⊢
    grind
  | _ => simp_all [children]

@[grind →] theorem Fn.sizeOf_le_of_mem_children {f : Fn} {c : Node} (h : c ∈ f.children) :
    sizeOf c ≤ sizeOf f := by
  obtain ⟨p, ds, n, ps, r, b⟩ := f
  have hpos := sizeOf_pos_pos p
  cases b <;> simp [children, decorators, name, params, result, body] at h ⊢ <;>
    grind [→ sizeOf_lt_of_mem]

theorem Stmt.sizeOf_le_of_mem_children {s : Stmt} {c : Node} (h : c ∈ s.children) :
    sizeOf c ≤ sizeOf s := by
  have hpos := sizeOf_pos_pos
  cases s with
  | mapConst p ds n t e m | returnStmt p e => cases e <;> simp [children] at h ⊢ <;> grind
  | _ =>
    simp [children] at h ⊢
    grind [→ sizeOf_lt_of_mem]

/-- A part right below another one weighs less. -/
theorem Node.weight_lt_of_mem_children {m : Node} (h : c ∈ m.children) : c.weight < m.weight := by
  cases m with
  | expr e =>
    have := Expr.sizeOf_le_of_mem_children h
    exact weight_lt (by simp; omega)
  | type t =>
    cases t with
    | named n =>
      obtain rfl := mem_singleton.1 h
      simp [weight, Ident.node]
    | _ =>
      refine weight_lt ?_
      simp [children, Ty.children] at h ⊢
      grind [→ sizeOf_lt_of_mem]
  | parameter p =>
    refine weight_lt ?_
    obtain ⟨n, t⟩ := p
    cases t <;> simp [children, Ty.optionalNode] at h ⊢ <;> grind
  | block b =>
    refine weight_lt ?_
    cases b
    simp [children, Block.statements] at h ⊢
    grind [→ sizeOf_lt_of_mem]
  | stmt s =>
    have := Stmt.sizeOf_le_of_mem_children h
    exact weight_lt (by simp; omega)
  | program ss =>
    refine weight_lt ?_
    simp [children] at h ⊢
    grind [→ sizeOf_lt_of_mem]

/-! ### Induction -/

/-- **Induction over the parts of a program.**  What follows for a part from the same throughout the
parts right below it holds throughout. -/
theorem Node.all_of_step (step : ∀ n, (∀ c ∈ n.children, c.All P) → P n) (n : Node) : n.All P := by
  have hbelow : ∀ c ∈ n.children, c.All P := fun c _ => all_of_step step c
  exact all_iff.2 ⟨step n hbelow, hbelow⟩
termination_by n.weight
decreasing_by exact Node.weight_lt_of_mem_children ‹_›

theorem Node.All.induct {P Q : Node → Prop} {n : Node} (h : n.All P)
    (step : ∀ n, P n → (∀ c ∈ n.children, c.All fun m => P m ∧ Q m) → Q n) :
    n.All fun m => P m ∧ Q m := by
  have hall := all_of_step (P := fun n => n.All P → Q n) (fun n ih hn =>
    step n hn.self fun c hc => fun m hm =>
      ⟨(hn.below c hc).of_contains hm |>.self, ih c hc m hm ((hn.below c hc).of_contains hm)⟩) n
  exact fun m hm => ⟨h m hm, hall m hm (h.of_contains hm)⟩

/-- Induction over the expressions right below. -/
theorem Expr.induction_below {P : Expr → Prop}
    (step : ∀ e : Expr, (∀ c, Node.expr c ∈ e.children → P c) → P e) (e : Expr) : P e := by
  have hall := Node.all_of_step (P := fun n => ∀ e, n = .expr e → P e) (fun n ih e hn => by
    subst hn
    exact step e fun c hc => (ih _ hc).self c rfl) (.expr e)
  exact hall.self e rfl

/-- Induction over the types right below. -/
theorem Ty.induction_below {P : Ty → Prop}
    (step : ∀ t : Ty, (∀ c, Node.type c ∈ t.children → P c) → P t) (t : Ty) : P t := by
  have hall := Node.all_of_step (P := fun n => ∀ t, n = .type t → P t) (fun n ih t hn => by
    subst hn
    exact step t fun c hc => (ih _ hc).self c rfl) (.type t)
  exact hall.self t rfl

end Covenant
