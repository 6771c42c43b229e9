import Covenant.Proofs.Clarity.Faithful
import Covenant.Proofs.Program.Access
import Covenant.Proofs.Program.Assets

/-!
# How members of local names are rendered

A member of a name is read with `get`, unless the access is spelled like one of the three values of
the chain.  Those are told by their spelling alone: the names that are in force where the access
stands do not count, and neither do their types.
-/

namespace Covenant

open Expr

open List (Forall₂ mapM_cons)
open Expr (explicit_call knownType)

open Form (atom row apply)

/-! ### Values of the chain -/

theorem Access.chainValue?_eq_some_iff (a : Access) (c : ChainValue) :
    a.chainValue? = some c ↔ a.path = c.path := by
  change (if a.path = ChainValue.txSender.path then some ChainValue.txSender
    else if a.path = ChainValue.contractCaller.path then some .contractCaller
    else if a.path = ChainValue.blockHeight.path then some .blockHeight else none) = some c ↔ _
  constructor
  · intro h
    split at h
    · cases h
      assumption
    · split at h
      · cases h
        assumption
      · split at h <;> cases h
        assumption
  · intro h
    rw [h]
    cases c <;> decide

variable {names inner : List Bytes} {p : Pos}

theorem chainValue?_explicit (e : Expr) (property : Ident) :
    chainValue? (e.explicit names) property = chainValue? e property := by
  cases e with
  | member p e f =>
    exact explicit_member_congr (chainValue? · property) (fun _ => rfl) fun _ => rfl
  | _ => simp only [explicit, explicit_call, explicit_comprehension, chainValue?]

theorem isIterator_explicit (x : Bytes) (e : Expr) :
    isIterator x (e.explicit names) = isIterator x e := by
  cases e with
  | member p e f => exact explicit_member_congr (isIterator x) (fun _ => rfl) fun _ => rfl
  | _ => simp only [explicit, explicit_call, explicit_comprehension, isIterator]

theorem plainOperand?_explicit (x : Bytes) (e : Expr) :
    plainOperand? x (e.explicit names) = plainOperand? x e := by
  cases e with
  | member p e f => exact explicit_member_congr (plainOperand? x) (fun _ => rfl) fun _ => rfl
  | _ => simp only [explicit, explicit_call, explicit_comprehension, plainOperand?]

theorem partialForm?_explicit (x : Bytes) (e : Expr) :
    partialForm? x (e.explicit names) = partialForm? x e := by
  cases e with
  | member p e f => exact explicit_member_congr (partialForm? x) (fun _ => rfl) fun _ => rfl
  | binary p op l r =>
    simp only [explicit, partialForm?, isIterator_explicit, plainOperand?_explicit]
  | _ => simp only [explicit, explicit_call, explicit_comprehension, partialForm?]

theorem Else.isOpen_explicit (e : Else) : (e.explicit names).isOpen = e.isOpen := by
  induction e using induction_branches with
  | absent => rw [explicit]
  | final b => rw [explicit, isOpen, isOpen]
  | elseIf c b rest ih => rw [explicit, isOpen, isOpen, ih]

/-! ### Types -/

theorem Access.knownType_expr (a : Access) (p : Pos) (sc : Scope) :
    (a.expr p).knownType sc = a.chainValue?.map fun c => .ofName c.typeName := by
  rfl

theorem Access.knownType_getter (a : Access) (sc : Scope) : a.getter.knownType sc = none := by
  simp only [getter, knownType]

theorem Expr.knownType_explicit : ∀ (e : Expr) (sc : Scope),
    (e.explicit names).knownType sc = e.knownType sc
  | .someOf _ e, sc => by simp only [explicit, knownType, knownType_explicit e sc]
  | .list _ [], sc => by simp only [explicit, explicitAll]
  | .list _ (e :: es), sc => by
    simp only [explicit, explicitAll, knownType, knownType_explicit e sc]
  | .binary _ op l r, sc => by
    have hl := knownType_explicit l sc
    have hr := knownType_explicit r sc
    cases op <;> simp only [explicit, knownType, hl, hr]
  | .unary _ op e, sc => by
    have he := knownType_explicit e sc
    cases op <;> simp only [explicit, knownType, he]
  | .conditional _ c t e, sc => by
    simp only [explicit, knownType, knownType_explicit t sc, knownType_explicit e sc]
  | .member p e property, sc => by
    obtain ⟨a, rfl, rfl, hchain, -, h⟩ | ⟨-, h⟩ := explicit_member_cases names p e property
    · have htype := a.knownType_expr p sc
      rw [hchain] at htype
      rw [h, a.knownType_getter]
      exact htype.symm
    · rw [h, knownType, knownType, chainValue?_explicit]
  | .ident _, _ | .literal .., _ | .principal .., _ | .noneLit _, _ => by simp only [explicit]
  | .typeCheck .., sc | .cast .., sc | .tuple .., sc | .call .., sc | .contractCall .., sc
  | .assetCall .., sc | .map .., sc | .filter .., sc | .fold .., sc | .comprehension .., sc
  | .lambda .., sc => by
    simp only [explicit, explicit_call, explicit_comprehension, knownType]

/-! ### Forms -/

variable (target : Version)

theorem Access.form_getter (a : Access) (sc : Scope) :
    a.getter.form target sc = .ok (apply "get" [atom a.property.name, atom a.object.name]) := by
  rw [getter, form]
  · rfl
  · simp

theorem Access.form_expr (a : Access) (p : Pos) (sc : Scope) : (a.expr p).form target sc =
      match a.chainValue? with
      | some c => .ok (atom c.word)
      | none => a.getter.form target sc :=
  rfl

/-! ### Forms for two targets -/

def Cause.IsGate (c : Cause) : Prop :=
  c.code = "GEN-0002"

/-- The results agree, but that the first may be a refusal for its target. -/
def Gated (older newer : Version) {α : Type} (x y : Except Fault α) : Prop :=
  x = y ∨ older ≠ newer ∧ ∃ f, x = .error f ∧ f.cause.IsGate

variable {older newer : Version}

namespace Gated

variable {α β : Type} {x y : Except Fault α}

theorem refl (x : Except Fault α) : Gated older newer x x :=
  .inl rfl

theorem eq (h : Gated older older x y) : x = y :=
  h.resolve_right fun h => h.1 rfl

theorem bind (h : Gated older newer x y) (hk : ∀ a, Gated older newer (k a) (l a)) :
    Gated older newer (x >>= k) (y >>= l) := by
  obtain rfl | ⟨hne, f, rfl, hf⟩ := h
  · cases x with
    | ok a => exact hk a
    | error f => exact .refl _
  · -- a refusal of the first step is one of the whole
    exact .inr ⟨hne, f, rfl, hf⟩

theorem map (h : Gated older newer x y) (g : α → β) : Gated older newer (g <$> x) (g <$> y) := by
  obtain rfl | ⟨hne, f, rfl, hf⟩ := h
  · exact .refl _
  · exact .inr ⟨hne, f, rfl, hf⟩

theorem collect (h : Forall₂ (Gated older newer) rs ss) :
    Gated older newer (collect rs) (collect ss) := by
  induction h with
  | nil => exact .refl _
  | cons hr _ ih =>
    rw [Covenant.collect, Covenant.collect, mapM_cons, mapM_cons]
    exact hr.bind fun _ => ih.bind fun _ => .refl _

end Gated

def Version.Gates (older newer : Version) : Prop :=
  newer.isBefore BinOp.bitwiseSince = true → older.isBefore BinOp.bitwiseSince = true

theorem Gated.ite (h : older.Gates newer) (hne : older ≠ newer) (hx : x.cause.IsGate) :
    Gated older newer (if older.isBefore BinOp.bitwiseSince then .error x else r)
      (if newer.isBefore BinOp.bitwiseSince then .error y else r) := by
  by_cases holder : older.isBefore BinOp.bitwiseSince = true
  · rw [if_pos holder]
    exact .inr ⟨hne, x, rfl, hx⟩
  · rw [if_neg holder, if_neg fun hnewer => holder (h hnewer)]
    exact .refl r

theorem BinOp.gated_form (h : older.Gates newer) (p : Pos) (op : BinOp) (l r : Form) :
    Gated older newer (op.form older p l r) (op.form newer p l r) := by
  by_cases hne : older = newer
  · exact hne ▸ .refl _
  cases op <;>
    simp [form, function?, isBitwise]
  case bitAnd | bitOr | bitXor | shiftLeft | shiftRight => exact .ite h hne rfl
  all_goals exact .refl _

theorem Expr.gated_call (hne : ∀ q e n, f ≠ .member q e n)
    (hf : Gated older newer ((f.explicit names).form older sc) (f.form newer sc))
    (hargs : Forall₂ (Gated older newer) (forms older sc (explicitAll names args))
      (forms newer sc args)) :
    Gated older newer (((call p f args).explicit names).form older sc)
      ((call p f args).form newer sc) := by
  rw [explicit_call, explicitCallee_of_ne hne, form, form]
  · exact (Gated.collect hargs).bind fun _ => hf.bind fun _ => .refl _
  · exact hne
  · exact explicit_ne_member hne

theorem Stmt.gated_if (hc : Gated older newer ((c.explicit names).form older sc) (c.form newer sc))
    (hb : Gated older newer ((b.explicit names).form older sc) (b.form newer sc))
    (hmore : ∀ fallen fallen' : Except Fault Form, Gated older newer fallen fallen' →
      Gated older newer ((more.explicit names).form older sc fallen) (more.form newer sc fallen'))
    (hrest : Gated older newer (forms older sc (explicitAll inner rest)) (forms newer sc rest)) :
    Gated older newer (forms older sc ((ifStmt p c b more).explicit names ::
    explicitAll inner rest))
      (forms newer sc (.ifStmt p c b more :: rest)) := by
  refine hc.bind fun _ => hb.bind fun _ => ?_
  rw [Else.isOpen_explicit]
  cases more.isOpen with
  | true =>
    -- a refusal may also come from what follows, which is rendered inside
    refine (hmore _ _ ?_).bind fun _ => .refl _
    cases rest with
    | nil =>
      exact .refl _
    | cons s rest =>
      exact hrest.map _
  | false => exact (hmore _ _ (.refl _)).bind fun _ => hrest.bind fun _ => .refl _

mutual

theorem Expr.gated_form (h : older.Gates newer) (names : List Bytes) (sc : Scope) : ∀ e : Expr,
    Gated older newer ((e.explicit names).form older sc) (e.form newer sc)
  | .ident _ | .literal .. | .principal .. | .noneLit _ => by
    exact .refl _
  | .someOf _ e | .unary _ _ e | .typeCheck _ e _ => by
    rw [Expr.explicit, Expr.form, Expr.form]
    exact (e.gated_form h names sc).bind fun _ => .refl _
  | .cast _ e _ => by
    rw [Expr.explicit, Expr.form, Expr.form, Expr.knownType_explicit]
    exact (e.gated_form h names sc).bind fun _ => .refl _
  | .list _ es | .contractCall _ _ _ es => by
    exact (Gated.collect (Expr.gated_forms h names sc es)).bind fun _ => .refl _
  | .assetCall _ _ function es => by
    rw [Expr.explicit, Expr.form, Expr.form]
    have hes := assetArgs_forall₂ function (Expr.gated_forms h names sc es)
    exact (Gated.collect hes).bind fun _ => .refl _
  | .tuple _ fields => by
    exact (Gated.collect (Expr.gated_fieldForms h names sc fields)).bind fun _ => .refl _
  | .binary p op l r => by
    rw [Expr.explicit, Expr.form, Expr.form]
    exact (l.gated_form h names sc).bind fun _ => (r.gated_form h names sc).bind fun _ =>
      BinOp.gated_form h p op _ _
  | .map _ l f | .filter _ l f => by
    exact (f.gated_form h names sc).bind fun _ => (l.gated_form h names sc).bind fun _ => .refl _
  | .conditional _ c t e | .fold _ c t e => by
    rw [Expr.explicit, Expr.form, Expr.form]
    exact (c.gated_form h names sc).bind fun _ => (t.gated_form h names sc).bind fun _ =>
      (e.gated_form h names sc).bind fun _ => .refl _
  | .member p e property => by
    obtain ⟨a, rfl, rfl, hchain, -, heq⟩ | ⟨-, heq⟩ := Expr.explicit_member_cases names p e property
    · have hform := a.form_expr newer p sc
      rw [hchain, a.form_getter] at hform
      rw [heq, a.form_getter]
      exact .inl hform.symm
    · rw [heq, Expr.form, Expr.form, chainValue?_explicit]
      cases chainValue? e property with
      | some c => exact .refl _
      | none => exact (e.gated_form h names sc).bind fun _ => .refl _
  | .call _ f args => by
    have hf := Expr.gated_form h names sc f
    have hargs := Expr.gated_forms h names sc args
    cases f with
    | member _ e _ =>
      -- what is called stays a member
      rw [Expr.explicit, Expr.form, Expr.form]
      exact (Gated.collect hargs).bind fun _ => (e.gated_form h names sc).bind fun _ => .refl _
    | _ => exact Expr.gated_call (by simp) hf hargs
  | .comprehension _ e _ l none => by
    rw [Expr.explicit, Expr.form, Expr.form, Expr.knownType_explicit]
    exact (l.gated_form h names sc).bind fun _ => (e.gated_form h _ _).bind fun _ => .refl _
  | .comprehension _ e x l (some c) => by
    rw [Expr.explicit, Expr.form, Expr.form, Expr.knownType_explicit, partialForm?_explicit]
    refine (l.gated_form h names sc).bind fun _ => (c.gated_form h _ _).bind fun _ => ?_
    cases partialForm? x.name e with
    | some f => exact .refl _
    | none => exact ((e.gated_form h _ _).map _).bind fun _ => .refl _
  | .lambda _ ps body => by
    exact Body.gated_form h _ _ _ body

theorem Expr.gated_forms (h : older.Gates newer) (names : List Bytes) (sc : Scope) :
    ∀ es : List Expr, Forall₂ (Gated older newer) (Expr.forms older sc (Expr.explicitAll names es))
      (Expr.forms newer sc es)
  | [] => by
    exact .nil
  | e :: es => by
    rw [Expr.explicitAll, Expr.forms, Expr.forms]
    exact .cons (e.gated_form h names sc) (Expr.gated_forms h names sc es)

theorem Expr.gated_fieldForms (h : older.Gates newer) (names : List Bytes) (sc : Scope) :
    ∀ fields : List (Bytes × Expr), Forall₂ (Gated older newer)
      (Expr.fieldForms older sc (Expr.explicitFields names fields))
      (Expr.fieldForms newer sc fields)
  | [] => by
    exact .nil
  | (_, e) :: fields => by
    rw [Expr.explicitFields, Expr.fieldForms, Expr.fieldForms]
    exact .cons ((e.gated_form h names sc).map _) (Expr.gated_fieldForms h names sc fields)

theorem Body.gated_form (h : older.Gates newer) (names : List Bytes) (sc : Scope) (params : Form) :
    ∀ b : Body, Gated older newer ((b.explicit names).form older sc params) (b.form newer sc params)
  | .expr e => by
    exact (e.gated_form h names sc).bind fun _ => .refl _
  | .block b => by
    rw [Body.explicit, Body.form, Body.form]
    exact (b.gated_form h names sc).bind fun _ => .refl _

theorem Block.gated_form (h : older.Gates newer) (names : List Bytes) (sc : Scope) : ∀ b : Block,
    Gated older newer ((b.explicit names).form older sc) (b.form newer sc)
  | .mk _ ss => by
    exact (Stmt.gated_forms h names sc ss).bind fun _ => .refl _

theorem Stmt.gated_forms (h : older.Gates newer) (names : List Bytes) (sc : Scope) :
    ∀ ss : List Stmt, Gated older newer (Stmt.forms older sc (Stmt.explicitAll names ss))
      (Stmt.forms newer sc ss)
  | [] => by
    exact .refl _
  | s :: rest => by
    have hs := Stmt.gated_form h names sc s
    -- a binding gives the statements after it another scope
    have hrest (sc : Scope) := Stmt.gated_forms h (s.bound ++ names) sc rest
    rw [Stmt.explicitAll]
    cases s with
    | letDecl p n t e | constDecl p n t e =>
      refine (e.gated_form h names sc).bind fun _ => ?_
      cases rest with
      | nil =>
        exact .refl _
      | cons s rest =>
        rw [knownType_explicit]
        exact (hrest _).bind fun _ => .refl _
    | ifStmt p c b more =>
      exact Stmt.gated_if (c.gated_form h names sc) (b.gated_form h names sc)
        (fun _ _ hfallen => more.gated_form h names sc hfallen) (hrest sc)
    | returnStmt p e =>
      cases e <;>
      · exact hs.bind fun _ => (hrest sc).bind fun _ => .refl _
    | _ =>
      rw [Stmt.explicit, Stmt.forms.eq_def, Stmt.forms.eq_def newer]
      exact hs.bind fun _ => (hrest sc).bind fun _ => .refl _

theorem Else.gated_form (h : older.Gates newer) (names : List Bytes) (sc : Scope)
    (hfallen : Gated older newer fallen fallen') : ∀ more : Else,
    Gated older newer ((more.explicit names).form older sc fallen) (more.form newer sc fallen')
  | .absent => by
    rw [Else.explicit, Else.form, Else.form]
    exact hfallen
  | .final b => by
    rw [Else.explicit, Else.form, Else.form]
    exact Block.gated_form h names sc b
  | .elseIf c b rest => by
    rw [Else.explicit, Else.form, Else.form]
    exact (c.gated_form h names sc).bind fun _ => (b.gated_form h names sc).bind fun _ =>
      (rest.gated_form h names sc hfallen).bind fun _ => .refl _

theorem Stmt.gated_form (h : older.Gates newer) (names : List Bytes) (sc : Scope) : ∀ s : Stmt,
    Gated older newer ((s.explicit names).form older sc) (s.form newer sc)
  | .fnDecl f => by
    rw [Stmt.explicit, Stmt.form, Stmt.form]
    exact Fn.gated_form h names false f
  | .letDecl _ _ _ e | .constDecl _ _ _ e | .throwStmt _ e => by
    rw [Stmt.explicit, Stmt.form, Stmt.form]
    exact (e.gated_form h names sc).bind fun _ => .refl _
  | .returnStmt _ (some e) | .exprStmt _ e => by
    rw [Stmt.explicit, Stmt.form, Stmt.form]
    exact Expr.gated_form h names sc e
  | .ifStmt _ c b rest => by
    rw [Stmt.explicit, Stmt.form, Stmt.form]
    exact (c.gated_form h names sc).bind fun _ => (b.gated_form h names sc).bind fun _ =>
      (Else.gated_form h names sc (.refl _) rest).bind fun _ => .refl _
  | .tryStmt _ b _ handler => by
    rw [Stmt.explicit, Stmt.form, Stmt.form]
    exact (b.gated_form h names sc).bind fun _ => (handler.gated_form h _ _).bind fun _ => .refl _
  | .exportDecl _ s => by
    rw [Stmt.explicit, Stmt.form, Stmt.form]
    exact Stmt.gated_form h names sc s
  | .returnStmt _ none | .mapConst .. | .mapDecl _ | .assetDecl .. | .traitDecl ..
  | .importDecl .. => by
    rw [Stmt.explicit, Stmt.form, Stmt.form]
    exact .refl _

theorem Fn.gated_form (h : older.Gates newer) (names : List Bytes) (exported : Bool) : ∀ f : Fn,
    Gated older newer ((f.explicit names).form older exported) (f.form newer exported)
  | .mk _ _ _ _ _ none => by
    rw [Fn.explicit, Fn.form, Fn.form]
    exact .refl _
  | .mk _ _ _ ps _ (some b) => by
    rw [Fn.explicit, Fn.form, Fn.form]
    exact (Gated.refl (ps.mapM Parameter.form)).bind fun _ =>
      (b.gated_form h _ _).bind fun _ => .refl _

end

/-! ### Programs -/

/-- **A statement with explicit calls has the same form**, but for the target. -/
theorem Stmt.gated_topForm (h : older.Gates newer) (names : List Bytes) :
    ∀ (s : Stmt) (exported : Bool),
    Gated older newer ((s.explicit names).topForm older exported) (s.topForm newer exported)
  | s, exported => by
    have hs := gated_form h names [] s
    cases s with
    | exportDecl _ s =>
      exact gated_topForm h names s true
    | fnDecl f =>
      rw [explicit, topForm, topForm]
      exact Fn.gated_form h names exported f
    | letDecl _ n t e =>
      rw [explicit, topForm, topForm, dataVariable, dataVariable, Expr.knownType_explicit]
      cases t.or (e.knownType []) with
      | none => exact .refl _
      | some t => exact (Expr.gated_form h names [] e).bind fun _ => .refl _
    | constDecl _ _ _ e =>
      exact (Expr.gated_form h names [] e).bind fun _ => .refl _
    | returnStmt p e => cases e <;> simpa only [explicit, topForm] using hs
    | _ => simpa only [explicit, topForm] using hs

theorem Stmt.topForm_explicit (names : List Bytes) (target : Version) (s : Stmt) (exported : Bool) :
    (s.explicit names).topForm target exported = s.topForm target exported :=
  (gated_topForm id names s exported).eq

theorem Stmt.isSetOff_explicit (s : Stmt) : (s.explicit names).isSetOff = s.isSetOff := by
  cases s with
  | returnStmt p e => cases e <;> simp only [explicit, isSetOff]
  | _ => simp only [explicit, isSetOff]

namespace Program

theorem renderOne_explicit (s : Stmt) :
    renderOne target (s.explicit names) = renderOne target s := by
  rw [renderOne, renderOne, Stmt.topForm_explicit]

theorem renderRest_explicit (ss : List Stmt) :
    renderRest target (ss.map (Stmt.explicit names)) = renderRest target ss := by
  induction ss with
  | nil => rfl
  | cons s ss ih =>
    rw [List.map_cons, renderRest, renderRest, renderOne_explicit, ih, Stmt.isSetOff_explicit]

/-- **A program with explicit calls is rendered alike.** -/
theorem render_explicit (p : Program) : p.explicit.render target = p.render target := by
  obtain ⟨ss⟩ := p
  cases ss with
  | nil => rfl
  | cons s ss =>
    simp only [render, explicit, List.map_cons, renderOne_explicit, renderRest_explicit]

end Program

theorem Access.print_getterForm (a : Access) (depth : Nat) :
    (apply "get" [atom a.property.name, atom a.object.name]).print depth = a.getterText := by
  have hhead : Bytes.ofString "(get " =
      Bytes.ofString "(" ++ (Bytes.ofString "get" ++ Bytes.ofString " ") := by decide
  simp [apply, row, Form.items, Form.print, Form.printItems, getterText, hhead]

/-- **How members of local names are read.**  A source is compiled as if every access to a member of
a local name, unless it is spelled like a value of the chain, were the call of `get` with the member
and the name.  After the replacement no other access is left.  The call is written with the member
first, and neither it nor the access has a type that is known.  An access that is spelled like a
value of the chain is the word for that value and has its type, whatever is in force. -/
theorem Options.compile_explicit (o : Options) (source : Bytes) :
    (do
      let target ← o.version
      let p ← o.program source
      o.renderFor target p.explicit) = o.compile source ∧
    (∀ p : Program, p.explicit.accesses = p.accesses.filter Access.isChain) ∧
    ∀ (target : Version) (a : Access) (p : Pos) (sc : Scope),
      match a.chainValue? with
      | none =>
        (∀ c : ChainValue, a.path ≠ c.path) ∧
        (∃ f, (a.expr p).form target sc = .ok f ∧ a.getter.form target sc = .ok f ∧
          ∀ depth, f.print depth = a.getterText) ∧
        (a.expr p).knownType sc = none ∧ a.getter.knownType sc = none
      | some c =>
        a.path = c.path ∧ (a.expr p).form target sc = .ok (atom c.word) ∧
        (a.expr p).knownType sc = some (.ofName c.typeName) := by
  refine ⟨?_, Program.accesses_explicit, ?_⟩
  · simp only [Options.compile, Options.renderFor, Program.render_explicit]
  · intro target a p sc
    have hform := a.form_expr target p sc
    have htype := a.knownType_expr p sc
    cases hchain : a.chainValue? with
    | none =>
      rw [hchain] at hform htype
      have hgetter := a.form_getter target sc
      refine ⟨fun c hc => ?_, ⟨_, hform.trans hgetter, hgetter, a.print_getterForm⟩, htype,
        a.knownType_getter sc⟩
      cases hchain.symm.trans ((a.chainValue?_eq_some_iff c).2 hc)
    | some c =>
      rw [hchain] at hform htype
      exact ⟨(a.chainValue?_eq_some_iff c).1 hchain, hform, htype⟩

/-- A parameter that is named like the transaction is no exception: its sender is that of the
transaction. -/
theorem Options.compile_captured :
    (({} : Options).program "function f(tx: T): principal { return tx.sender; }").toOption.map
        (fun p => p.accesses.map Access.path) = some [Bytes.ofString "tx.sender"] ∧
      ({} : Options).compile "function f(tx: T): principal { return tx.sender; }" =
        .ok "(define-private (f (tx T))\n  tx-sender)" :=
  ⟨by decide, eq_ok_of_toOption (by decide)⟩

end Covenant
