import Covenant.Proofs.Clarity.Atom
import Covenant.Proofs.Clarity.Indentation
import Covenant.Proofs.Clarity.Translation
import Covenant.Proofs.Program.Induction
import Covenant.Proofs.Program.Likeness

/-!
# Rendered code says what it should

The text of a program is read back as the translation of its statements, one tree for each of them
and in their order.  So parentheses are balanced, and neither layout nor the contents of a string
changes what belongs to what.
-/

namespace Covenant

open List Form Bytes Node
open Stmt (topCode topForm)

open SExpr (isAtom)

/-! ### Readable forms -/

namespace Form

variable {fs : List Form}

theorem areReadable_map (hgap : gap ≠ .glued)
    (h : ∀ f ∈ fs, f.isReadable = true) (afterWord : Bool) :
    areReadable afterWord (fs.map (gap, ·)) = true := by
  induction fs generalizing afterWord with
  | nil => rfl
  | cons f fs ih =>
    obtain ⟨hf, hfs⟩ := forall_mem_cons.1 h
    have hgap' : (gap == Gap.glued) = false := by simpa using hgap
    rw [map_cons, areReadable, hf, ih hfs, hgap']
    simp

theorem areReadable_append {items : List (Gap × Form)}
    (hitems : areReadable afterWord items = true) (hgap : gap ≠ .glued)
    (h : ∀ f ∈ fs, f.isReadable = true) :
    areReadable afterWord (items ++ fs.map (gap, ·)) = true := by
  induction items generalizing afterWord with
  | nil => exact areReadable_map hgap h afterWord
  | cons item items ih =>
    rw [areReadable, Bool.and_eq_true] at hitems
    rw [cons_append, areReadable, hitems.1, ih hitems.2]
    rfl

theorem areReadable_items (hgap : gap ≠ .glued)
    (h : ∀ f ∈ fs, f.isReadable = true) : areReadable false (items gap fs) = true := by
  cases fs with
  | nil => rfl
  | cons f fs =>
    obtain ⟨hf, hfs⟩ := forall_mem_cons.1 h
    rw [items, areReadable, hf, areReadable_map hgap hfs]
    rfl

theorem trees_eq_map (is : List (Gap × Form)) : trees is = is.map fun i => i.2.tree := by
  induction is with
  | nil => rw [trees, map_nil]
  | cons i is ih => rw [trees, ih, map_cons]

theorem trees_items (gap : Gap) (fs : List Form) : trees (items gap fs) = fs.map tree := by
  rw [trees_eq_map]
  cases fs with
  | nil => rfl
  | cons f fs => simp [items]

theorem tree_stack (head body : List Form) :
    (stack head body).tree = .list (head.map tree ++ body.map tree) := by
  rw [stack, tree, trees_eq_map, map_append, ← trees_eq_map, trees_items, map_map]
  rfl

end Form

theorem Form.shifts_items (h : ∀ f ∈ fs, f.Shifts) : ∀ i ∈ items gap fs, i.2.Shifts := by
  cases fs with
  | nil => exact forall_mem_nil _
  | cons f fs => simpa [items] using h

/-- The text may stand as a word: it holds no line feed and, where code is read back, is an atom. -/
structure IsWord (strict : Bool) (w : Bytes) : Prop where
  isAtom : strict = true → isAtom w = true
  newline_notMem : 10 ∉ w

theorem IsWord.of_isAtom (h : SExpr.isAtom w = true) : IsWord strict w :=
  ⟨fun _ => h, fun hmem => absurd (all_eq_true.1 (all_of_isAtom h) 10 hmem) (by decide)⟩

/-- The form says the tree, and can be read where code is read back. -/
structure Says (strict : Bool) (t : SExpr) (f : Form) : Prop where
  readable : strict = true → f.isReadable = true
  tree : f.tree = t
  shifts : f.Shifts

namespace Says

variable {t u : SExpr} {f g : Form} {ts us : List SExpr} {fs gs : List Form} {w : String}

theorem key {w : Bytes} (h : IsWord strict w) : Says strict (.atom w) (.atom w) :=
  ⟨h.isAtom, by rw [Form.tree], fun _ _ => (shifted_eq h.newline_notMem).symm⟩

theorem atom {w : Bytes} (h : isAtom w = true) : Says strict (.atom w) (.atom w) :=
  key (.of_isAtom h)

theorem word (h : isAtom w = true) : Says strict (.word w) (.atom w) :=
  .atom h

theorem quoted (s : Bytes) : Says strict (.string s) (.quoted s) :=
  ⟨fun _ => by rw [Form.isReadable], by rw [Form.tree],
    fun _ _ => (shifted_eq (Quoted.newline_notMem_encode s)).symm⟩

theorem forall_readable (h : Forall₂ (Says strict) ts fs) (hs : strict = true) :
    ∀ f ∈ fs, f.isReadable = true :=
  forall_mem_of_forall₂ h.flip fun _ _ h => h.readable hs

theorem map_tree (h : Forall₂ (Says strict) ts fs) : fs.map Form.tree = ts :=
  (map_eq_map_of_forall₂ h.flip fun _ _ h => h.tree).trans (map_id' ts)

theorem forall_shifts (h : Forall₂ (Says strict) ts fs) : ∀ f ∈ fs, f.Shifts :=
  forall_mem_of_forall₂ h.flip fun _ _ h => h.shifts

theorem spaced {gap : Gap} (hgap : gap ≠ .glued) (h : Forall₂ (Says strict) ts fs) :
    Says strict (.list ts) (.list (items gap fs)) :=
  ⟨fun hs => by rw [Form.isReadable, Form.areReadable_items hgap (forall_readable h hs)],
    by rw [Form.tree, Form.trees_items, map_tree h], .list (Form.shifts_items (forall_shifts h))⟩

theorem row (h : Forall₂ (Says strict) ts fs) : Says strict (.list ts) (Form.row fs) :=
  spaced (by decide) h

theorem apply (hw : isAtom w = true) (h : Forall₂ (Says strict) ts fs) :
    Says strict (.app w ts) (apply w fs) :=
  row (.cons (word hw) h)

theorem pair {name : Bytes} (hname : IsWord strict name) (h : Says strict t f) :
    Says strict (.pair name t) (Form.pair name f) :=
  row (.cons (key hname) (.cons h .nil))

theorem stack (hhead : Forall₂ (Says strict) ts fs) (hbody : Forall₂ (Says strict) us gs) :
    Says strict (.list (ts ++ us)) (Form.stack fs gs) where
  readable hs := by
    have hspace : Gap.space ≠ .glued := by decide
    have hitems := Form.areReadable_items hspace (forall_readable hhead hs)
    rw [Form.stack, Form.isReadable,
      Form.areReadable_append hitems (by decide) (forall_readable hbody hs)]
  tree := by rw [Form.tree_stack, map_tree hhead, map_tree hbody]
  shifts := .list (forall_mem_append.2
    ⟨Form.shifts_items (forall_shifts hhead), forall_mem_map.2 (forall_shifts hbody)⟩)

theorem glued (hw : isAtom w = true) (hf : Says strict t f) (hlist : f.isWord = false)
    (hg : Says strict u g) : Says strict (.list [.word w, t, u])
      (.list [(.glued, .atom w), (.glued, f), (.space, g)]) where
  readable hs := by
    simp [Form.isReadable, Form.areReadable, hw, hf.readable hs, hg.readable hs, hlist]
  tree := by simp only [Form.tree, Form.trees, hf.tree, hg.tree, SExpr.word]
  shifts := .list (by simpa using ⟨(word hw : Says strict _ _).shifts, hf.shifts, hg.shifts⟩)

theorem unit : Says strict .unit unit :=
  row .nil

theorem sequence (h : Forall₂ (Says strict) ts fs) : Says strict (.sequence ts) (sequence fs) := by
  cases h with
  | nil => exact unit
  | cons hf h =>
  cases h with
  | nil => exact hf
  | cons hg h => exact stack (.cons (word (by decide)) .nil) (.cons hf (.cons hg h))

theorem conditional {c b o : SExpr} (hc : Says strict c fc) (hb : Says strict b fb)
    (ho : Says strict o fo) : Says strict (.app "if" [c, b, o])
    (Form.stack [.atom "if", fc] [fb, fo]) :=
  stack (.cons (word (by decide)) (.cons hc .nil)) (.cons hb (.cons ho .nil))

theorem map {α : Type} {k : α → SExpr} {m : α → Form} {as : List α}
    (h : ∀ a ∈ as, Says strict (k a) (m a)) : Forall₂ (Says strict) (as.map k) (as.map m) := by
  rw [forall₂_map_left_iff, forall₂_map_right_iff]
  exact forall₂_same.2 h

theorem lambda {params : List Bytes} (hparams : ∀ w ∈ params, isAtom w = true)
    (h : Says strict t f) :
    Says strict (.lambda params t) (lambdaForm params f) :=
  apply (by decide) (.cons (row (map fun w hw => atom (hparams w hw))) (.cons h .nil))

theorem binding {n : Ident} (hn : isAtom n.name = true) (hvalue : Says strict t f) :
    Says strict (.binding n.name t (.atom n.name)) (letForm n f none) ∧
      ∀ {u : SExpr} {g : Form}, Says strict u g →
      Says strict (.binding n.name t u) (letForm n f (some g)) := by
  have hpair := row (.cons (pair (.of_isAtom hn) hvalue) .nil)
  refine ⟨apply (by decide) (.cons hpair (.cons (atom hn) .nil)), fun hu => ?_⟩
  exact stack (.cons (word rfl) (.cons hpair .nil)) (.cons hu .nil)

end Says

/-! ### Legible parts -/

/-- The names in a part are words of the source language, and the texts that become words as they
stand may do so: the keys of tuples, and the contracts that imports name. -/
def Node.Legible (strict : Bool) : Node → Prop
  | .expr (.ident n) => n.name.isName = true
  | .expr (.principal _ address) => address.isAddress = true
  | .expr (.tuple _ fields) => ∀ f ∈ fields, IsWord strict f.1
  | .expr (.contractCall _ _ function _) => function.isName = true
  | .expr (.assetCall _ _ function _) => function.isName = true
  | .type (.tuple _ fields) => ∀ f ∈ fields, f.1.isName = true
  | .stmt (.importDecl _ _ source) => IsWord strict (contractOf source)
  | _ => True

theorem Node.isAtom_of_ident {n : Ident} (h : n.node.All (Legible strict)) : isAtom n.name = true :=
  isAtom_of_isName h.self

/-! ### Types and declarations -/

namespace Ty

mutual

theorem says_form : ∀ t : Ty, (type t).All (Node.Legible strict) → Says strict t.code t.form
  | .named n, h => by
    have hn := h.below _ (.head _)
    rw [code, form]
    split
    · exact .apply (by decide) (.cons (.word (by decide)) .nil)
    · exact .atom (isAtom_of_ident hn)
  | .list _ t, h => by
    exact .apply (by decide) (.cons (says_form t (h.below _ (.head _))) .nil)
  | .tuple _ fields, h => by
    rw [code, form]
    exact .apply (by decide) (says_fieldForms fields h.self (forall_mem_map.1 h.below))
  | .optional _ t, h => by
    exact .apply (by decide) (.cons (says_form t (h.below _ (.head _))) .nil)
  | .response _ ok err, h => by
    rw [code, form]
    exact .apply (by decide) (.cons (says_form ok (h.below _ (.head _)))
      (.cons (says_form err (h.below _ (.tail _ (.head _)))) .nil))

theorem says_fieldForms : ∀ fields : List (Bytes × Ty), (∀ f ∈ fields, f.1.isName = true) →
    (∀ f ∈ fields, (type f.2).All (Node.Legible strict)) →
    Forall₂ (Says strict) (fieldCodes fields) (fieldForms fields)
  | [], _, _ => by
    exact .nil
  | (key, t) :: fields, hkeys, h => by
    obtain ⟨hkey, hkeys⟩ := forall_mem_cons.1 hkeys
    obtain ⟨ht, h⟩ := forall_mem_cons.1 h
    rw [fieldCodes, fieldForms]
    exact .cons (.pair (.of_isAtom (isAtom_of_isName hkey)) (says_form t ht))
      (says_fieldForms fields hkeys h)

end

theorem yields_form? (h : ∀ n ∈ optionalNode t, n.All (Node.Legible strict)) :
    Yields (Says strict (code? t)) (form? t) := by
  cases t with
  | none => exact .error
  | some t => exact .ok (says_form t (h _ (.head _)))

theorem says_testForm (ht : (type t).All (Node.Legible strict)) {u : SExpr} {f : Form}
    (hf : Says strict u f) : Says strict (t.testCode u) (t.testForm f) := by
  have htype := says_form t ht
  cases t with
  | named n =>
    have hn := ht.below _ (.head _)
    exact .row (.cons (.atom (isAtom_append rfl (isAtom_of_ident hn))) (.cons hf .nil))
  | list | tuple | optional | response => exact .glued (by decide) htype (by rw [form]; rfl) hf

theorem says_castForm (ht : (type t).All (Node.Legible strict)) (known : Option Ty)
    {u : SExpr} {f : Form} (hf : Says strict u f) :
    Says strict (t.castCode known u) (t.castForm known f) := by
  rw [castCode, castForm]
  split
  · exact .apply (by decide) (.cons hf .nil)
  · split
    · exact .apply (by decide) (.cons hf .nil)
    · exact .apply (by decide) (.cons (says_form t ht) (.cons hf .nil))

end Ty

theorem MapShape.says_form {m : MapShape} (h : ∀ n ∈ m.children, n.All (Node.Legible strict)) :
    Says strict m.code m.form := by
  have hname := h _ (.head _)
  exact .apply (by decide) (.cons (.atom (isAtom_of_ident hname))
    (.cons (Ty.says_form _ (h _ (.tail _ (.head _))))
      (.cons (Ty.says_form _ (h _ (.tail _ (.tail _ (.head _))))) .nil)))

theorem Parameter.yields_form (h : (parameter p).All (Node.Legible strict)) :
    Yields (Says strict p.code) p.form := by
  obtain ⟨hname, htype⟩ := forall_mem_cons.1 h.below
  exact (Ty.yields_form? htype).bind fun f hf => .ok (.pair (.of_isAtom (isAtom_of_ident hname)) hf)

variable {ps : List Parameter} {t : SExpr} {e : Expr} {ts : List SExpr} {p : Pos}

theorem Parameter.yields_forms (h : ∀ p ∈ ps, (parameter p).All (Node.Legible strict)) :
    Yields (Forall₂ (Says strict) (ps.map code)) (ps.mapM form) := by
  refine Yields.mapM ?_
  rw [forall₂_map_left_iff]
  exact forall₂_same.2 fun p hp => yields_form (h p hp)

theorem isAtom_visibility (f : Fn) (exported : Bool) :
    isAtom (ofString "define-" ++ ofString (visibility f exported)) = true := by
  unfold visibility
  split
  · decide
  · split
    · decide
    · split
      · decide
      · split <;> decide

theorem Fn.yields_signatureForm {f : Fn} (h : ∀ n ∈ f.children, n.All (Node.Legible strict)) :
    Yields (Says strict f.signatureCode) f.signatureForm := by
  obtain ⟨hname, hparams, hresult, -⟩ := of_forall_children h
  have hparams : Yields (Forall₂ (Says strict) (f.params.map fun p => Ty.code? p.type))
      (f.params.mapM fun p => Ty.form? p.type) := by
    refine Yields.mapM ?_
    rw [forall₂_map_left_iff]
    exact forall₂_same.2 fun p hp =>
      Ty.yields_form? fun n hn => (hparams p hp).below n (.tail _ hn)
  exact hparams.bind fun fs hfs => (Ty.yields_form? hresult).bind fun g hg =>
    .ok (.row (.cons (.atom (isAtom_of_ident hname)) (.cons (.row hfs) (.cons hg .nil))))

theorem yields_traitForm {n : Ident} (hn : n.node.All (Node.Legible strict))
    (h : ∀ f ∈ fs, ∀ n ∈ f.children, n.All (Node.Legible strict)) :
    Yields (Says strict (.app "define-trait" [.atom n.name, .list (fs.map Fn.signatureCode)]))
      (traitForm n fs) := by
  have hsignatures : Yields (Forall₂ (Says strict) (fs.map Fn.signatureCode))
      (fs.mapM Fn.signatureForm) := by
    refine Yields.mapM ?_
    rw [forall₂_map_left_iff]
    exact forall₂_same.2 fun f hf => Fn.yields_signatureForm (h f hf)
  exact hsignatures.bind fun gs hgs => .ok
    (.stack (.cons (.word (by decide)) (.cons (.atom (isAtom_of_ident hn)) .nil))
      (.cons (.spaced (by decide) hgs) .nil))

/-! ### Operators and literals -/

theorem BinOp.yields_form (target : Version) (p : Pos) (op : BinOp) {u : SExpr} {f g : Form}
    (hf : Says strict t f) (hg : Says strict u g) :
    Yields (Says strict (op.code t u)) (op.form target p f g) := by
  have hargs : Forall₂ (Says strict) [t, u] [f, g] := .cons hf (.cons hg .nil)
  cases op with
  | ne => exact .ok (.apply (by decide) (.cons (.apply (by decide) hargs) .nil))
  | bitAnd | bitOr | bitXor | shiftLeft | shiftRight =>
    simp only [form, function?]
    split
    · exact .error
    · exact .ok (.apply (by decide) hargs)
  | other => exact .error
  | _ => exact .ok (.apply (by decide) hargs)

theorem UnOp.yields_form (op : UnOp) {f : Form} (hf : Says strict t f) :
    Yields (Says strict (op.code t)) (op.form f) := by
  cases op with
  | other => exact .error
  | _ => exact .ok (.apply (by decide) (.cons hf .nil))

theorem Literal.says_form (v : Literal) : Says strict v.code v.form := by
  cases v with
  | int v => exact .atom (isAtom_ofInt _)
  | float v => exact .atom (isAtom_floatText v)
  | string s => exact .quoted s
  | bool b => cases b <;> exact .word (by decide)

theorem Expr.rel_operand (h : (expr e).All (Node.Legible strict)) (x : Bytes) :
    Option.Rel (Says strict) (e.operandCode? x) (plainOperand? x e) := by
  cases e with
  | literal _ _ v => exact .some (Literal.says_form v)
  | principal => exact .some (.atom (isAtom_of_isAddress h.self))
  | ident n =>
    simp only [operandCode?, plainOperand?]
    split
    · exact .none
    · exact .some (.atom (isAtom_of_ident h))
  | _ => exact .none

theorem Expr.rel_section (h : (expr e).All (Node.Legible strict)) (x : Bytes) :
    Option.Rel (Says strict) (e.sectionCode? x) (partialForm? x e) := by
  cases e with
  | binary p op l r =>
    have hl := rel_operand (h.below _ (.head _)) x
    have hr := rel_operand (h.below _ (.tail _ (.head _))) x
    have hmap {w : String} (hw : isAtom w = true) {a : Option SExpr} {b : Option Form}
        (hab : Option.Rel (Says strict) a b) :
        Option.Rel (Says strict) (a.map fun k => .list [.atom w, k])
          (b.map fun y => apply w [y]) := by
      cases hab with
      | none => exact .none
      | some h => exact .some (.apply hw (.cons h .nil))
    have hsome : (r.operandCode? x).isSome = (plainOperand? x r).isSome := by
      generalize r.operandCode? x = a at hr
      generalize plainOperand? x r = b at hr
      cases hr <;> rfl
    have hsection {w : String} (hw : isAtom w = true) : Option.Rel (Says strict)
        (if isIterator x l && (r.operandCode? x).isSome then
          (r.operandCode? x).map fun k => .list [.atom w, k]
        else if isIterator x r then (l.operandCode? x).map fun k => .list [.atom w, k]
        else none)
        (if isIterator x l && (plainOperand? x r).isSome then
          (plainOperand? x r).map fun y => apply w [y]
        else if isIterator x r then (plainOperand? x l).map fun y => apply w [y]
        else none) := by
      rw [hsome]
      split
      · exact hmap hw hr
      · split
        · exact hmap hw hl
        · exact .none
    cases op with
    | assign | ne | bitAnd | bitOr | bitXor | shiftLeft | shiftRight | other => exact .none
    | _ => exact hsection rfl
  | _ => exact .none

/-! ### Expressions and statements -/

theorem Yields.collect (h : Forall₂ (fun t r => Yields (Says strict t) r) ts rs) :
    Yields (Forall₂ (Says strict) ts) (collect rs) :=
  mapM (g := id) h

theorem Yields.fallen {rest : List Stmt} {r : Except Fault (List Form)}
    (h : Yields (Forall₂ (Says strict) ts) r) :
    Yields (Says strict (.sequence ts)) (match rest with
        | [] => .error ⟨.ifWithoutElse, p⟩
        | _ :: _ => sequence <$> r) := by
  cases rest with
  | nil => exact .error
  | cons s rest => exact h.map fun fs hfs => .sequence hfs

theorem assetArgs_forall₂ {α β : Type} {R : α → β → Prop} (function : Bytes) {as : List α}
    {bs : List β} (h : Forall₂ R as bs) :
    Forall₂ R (assetArgs function as) (assetArgs function bs) := by
  cases h with
  | nil => exact .nil
  | cons ha h =>
  cases h with
  | nil => exact .cons ha .nil
  | cons hb h =>
  cases h with
  | nil =>
    simp only [assetArgs]
    split
    · exact .cons hb (.cons ha .nil)
    · exact .cons ha (.cons hb .nil)
  | cons hc h => exact .cons ha (.cons hb (.cons hc h))

variable (strict : Bool) (target : Version)

def Node.Speaks : Node → Prop
  | .expr e => ∀ sc, Yields (Says strict (e.code sc)) (e.form target sc)
  | .block b => ∀ sc, Yields (Says strict (b.code sc)) (b.form target sc)
  | .stmt s => ∀ sc, Yields (Says strict (s.code sc)) (s.form target sc)
  | _ => True

def Node.Told (n : Node) : Prop :=
  n.Legible strict ∧ n.Speaks strict target

variable {strict target} {sc : Scope}

section

variable {n : Node} {m : Ident}

theorem Node.All.legible (h : n.All (Told strict target)) : n.All (Legible strict) :=
  h.imp fun _ h => h.1

theorem Node.All.isAtom (h : m.node.All (Told strict target)) : isAtom m.name = true :=
  isAtom_of_ident h.legible

theorem Node.All.speaks (h : n.All (Told strict target)) : n.Speaks strict target :=
  h.self.2

end

theorem Expr.yields_forms (h : ∀ e ∈ es, (expr e).All (Node.Told strict target)) :
    Forall₂ (fun t r => Yields (Says strict t) r) (codes sc es) (forms target sc es) := by
  induction es with
  | nil =>
    exact .nil
  | cons e es ih =>
    obtain ⟨he, hes⟩ := forall_mem_cons.1 h
    rw [codes, forms]
    exact .cons (he.speaks sc) (ih hes)

theorem Expr.yields_fieldForms {fields : List (Bytes × Expr)}
    (hkeys : ∀ f ∈ fields, IsWord strict f.1)
    (h : ∀ f ∈ fields, (expr f.2).All (Node.Told strict target)) :
    Forall₂ (fun t r => Yields (Says strict t) r) (fieldCodes sc fields)
      (fieldForms target sc fields) := by
  induction fields with
  | nil =>
    exact .nil
  | cons f fields ih =>
    obtain ⟨hkey, hkeys⟩ := forall_mem_cons.1 hkeys
    obtain ⟨hf, h⟩ := forall_mem_cons.1 h
    rw [fieldCodes, fieldForms]
    exact .cons ((hf.speaks sc).map fun _ hf => .pair hkey hf) (ih hkeys h)

theorem Expr.yields_args (h : ∀ c ∈ es.map expr, c.All (Node.Told strict target)) :
    Yields (Forall₂ (Says strict) (codes sc es)) (collect (forms target sc es)) :=
  Yields.collect (yields_forms (forall_mem_map.1 h))

theorem Expr.yields_call {f : Expr} (hf : (expr f).All (Node.Told strict target))
    (hargs : ∀ c ∈ args.map expr, c.All (Node.Told strict target)) :
    Yields (Says strict ((call p f args).code sc)) ((call p f args).form target sc) := by
  have hargs : Yields (Forall₂ (Says strict) (codes sc args)) (collect (forms target sc args)) :=
    yields_args hargs
  by_cases hmember : ∃ p object property, f = .member p object property
  · obtain ⟨p, object, property, rfl⟩ := hmember
    have hproperty := hf.below _ (.tail _ (.head _))
    have hobject := (hf.below _ (.head _)).speaks sc
    exact hargs.bind fun fs hfs => hobject.bind fun g hg =>
      .ok (.row (.cons (.atom (isAtom_hyphenated hproperty.self.1)) (.cons hg hfs)))
  · rw [code, form]
    · exact hargs.bind fun fs hfs => (hf.speaks sc).bind fun g hg => .ok (.row (.cons hg hfs))
    all_goals
      rintro p object property rfl
      exact hmember ⟨p, object, property, rfl⟩

theorem Expr.yields_assetCall {asset : Ident} {function : Bytes}
    (hfunction : function.isName = true) (hasset : asset.node.All (Node.Told strict target))
    (hargs : ∀ c ∈ args.map expr, c.All (Node.Told strict target)) :
    Yields (Says strict ((assetCall p asset function args).code sc))
      ((assetCall p asset function args).form target sc) := by
  have hword : isAtom (ofString "nft-" ++ hyphenated function ++ ofString "?") = true := by
    rw [append_assoc]
    exact isAtom_append rfl
      (isAtom_append (all_of_isAtom (isAtom_hyphenated hfunction)) rfl)
  have hargs : Forall₂ (fun t r => Yields (Says strict t) r) (codes sc args)
      (forms target sc args) := yields_forms (forall_mem_map.1 hargs)
  have hargs := assetArgs_forall₂ function hargs
  exact (Yields.collect hargs).bind fun fs hfs =>
    .ok (.row (.cons (.atom hword) (.cons (.atom hasset.isAtom) hfs)))

theorem Expr.yields_filtered {l c : Expr} {x : Ident}
    (he : (expr e).All (Node.Told strict target)) (hx : x.node.All (Node.Told strict target))
    (hl : (expr l).All (Node.Told strict target)) (hc : (expr c).All (Node.Told strict target)) :
    Yields (Says strict ((comprehension p e x l (some c)).code sc))
      ((comprehension p e x l (some c)).form target sc) := by
  have hx : ∀ w ∈ [x.name], isAtom w = true := by simpa using hx.isAtom
  have hsection := rel_section he.legible x.name
  have hbody := he.speaks (sc.bind x (elementType (l.knownType sc)))
  rw [code, form]
  refine (hl.speaks sc).bind fun g hg => (hc.speaks _).bind fun k hk => ?_
  have hfilter := Says.apply (w := "filter") rfl (.cons (.lambda hx hk) (.cons hg .nil))
  generalize e.sectionCode? x.name = a at hsection ⊢
  generalize partialForm? x.name e = b at hsection ⊢
  cases hsection with
  | some hs => exact .ok (.apply rfl (.cons hs (.cons hfilter .nil)))
  | none =>
    exact (hbody.map fun m hm => Says.lambda hx hm).bind fun m hm =>
      .ok (.apply rfl (.cons hm (.cons hfilter .nil)))

theorem Body.yields_form {b : Body} {params : Form} (hparams : Says strict t params)
    (h : b.node.All (Node.Told strict target)) :
    Yields (Says strict (.app "lambda" [t, b.code sc])) (b.form target sc params) := by
  cases b with
  | expr e =>
    exact (Node.All.speaks h sc).bind fun f hf =>
      .ok (.apply (by decide) (.cons hparams (.cons hf .nil)))
  | block b =>
    rw [code, form]
    exact (Node.All.speaks h sc).bind fun f hf =>
      .ok (.stack (.cons (.word (by decide)) (.cons hparams .nil)) (.cons hf .nil))

theorem Expr.yields_lambda {body : Body}
    (hps : ∀ c ∈ ps.map parameter, c.All (Node.Told strict target))
    (hbody : body.node.All (Node.Told strict target)) :
    Yields (Says strict ((lambda p ps body).code sc)) ((lambda p ps body).form target sc) := by
  have hparams : Says strict (.list (ps.map fun p => .atom p.name.name))
      (Form.row (ps.map fun p => .atom p.name.name)) :=
    .row (Says.map fun p hp => .atom
      (Node.All.isAtom ((forall_mem_map.1 hps p hp).below _ (.head _))))
  rw [code, form, SExpr.lambda, map_map]
  exact Body.yields_form hparams hbody

theorem Expr.speaks (hlegible : (expr e).Legible strict)
    (h : ∀ c ∈ e.children, c.All (Node.Told strict target)) : (expr e).Speaks strict target := by
  have hbelow (c : Expr) (hc : expr c ∈ e.children) (sc : Scope) :
      Yields (Says strict (c.code sc)) (c.form target sc) := (h _ hc).speaks sc
  intro sc
  cases e with
  | ident n =>
    exact .ok (.atom (isAtom_of_isName hlegible))
  | literal first p v =>
    rw [code, form]
    exact .ok v.says_form
  | principal p address =>
    exact .ok (.atom (isAtom_of_isAddress hlegible))
  | noneLit p =>
    rw [code, form]
    exact .ok (.word (by decide))
  | someOf p e =>
    exact (hbelow e (.head _) sc).bind fun f hf => .ok (.apply (by decide) (.cons hf .nil))
  | list p es =>
    rw [code, form]
    exact (yields_args h).bind fun fs hfs => .ok (.apply (by decide) hfs)
  | tuple p fields =>
    exact (Yields.collect (yields_fieldForms hlegible (forall_mem_map.1 h))).bind
      fun fs hfs => .ok (.apply (by decide) hfs)
  | binary p op l r =>
    rw [code, form]
    exact (hbelow l (.head _) sc).bind fun f hf =>
      (hbelow r (.tail _ (.head _)) sc).bind fun g hg =>
      op.yields_form target p hf hg
  | unary p op e =>
    exact (hbelow e (.head _) sc).bind fun f hf => op.yields_form hf
  | conditional p c t e =>
    rw [code, form]
    exact (hbelow c (.head _) sc).bind fun f hf =>
      (hbelow t (.tail _ (.head _)) sc).bind fun g hg =>
      (hbelow e (.tail _ (.tail _ (.head _))) sc).bind fun k hk =>
        .ok (.apply (by decide) (.cons hf (.cons hg (.cons hk .nil))))
  | member p e property =>
    have hproperty := h _ (.tail _ (.head _))
    rw [code, form]
    cases chainValue? e property with
    | some c => cases c <;> exact .ok (.word (by decide))
    | none =>
      exact (hbelow e (.head _) sc).bind fun f hf =>
        .ok (.apply (by decide) (.cons (.atom hproperty.isAtom) (.cons hf .nil)))
  | call p f args =>
    obtain ⟨hf, hargs⟩ := forall_mem_cons.1 h
    exact yields_call hf hargs
  | contractCall p contract function args =>
    obtain ⟨hcontract, hargs⟩ := forall_mem_cons.1 h
    have hfunction : isAtom function = true := isAtom_of_isName hlegible
    exact (yields_args hargs).bind fun fs hfs => .ok (.apply rfl
      (.cons (.atom (isAtom_append (by decide) hcontract.isAtom)) (.cons (.atom hfunction) hfs)))
  | assetCall p asset function args =>
    obtain ⟨hasset, hargs⟩ := forall_mem_cons.1 h
    exact yields_assetCall hlegible hasset hargs
  | map p l f | filter p l f =>
    rw [code, form]
    exact (hbelow f (.tail _ (.head _)) sc).bind fun g hg =>
      (hbelow l (.head _) sc).bind fun k hk =>
      .ok (.apply (by decide) (.cons hg (.cons hk .nil)))
  | fold p l i f =>
    exact (hbelow l (.head _) sc).bind fun g hg =>
      (hbelow i (.tail _ (.head _)) sc).bind fun k hk =>
      (hbelow f (.tail _ (.tail _ (.head _))) sc).bind fun m hm =>
        .ok (.apply (by decide) (.cons hg (.cons hk (.cons hm .nil))))
  | comprehension p e x l c =>
    have hx := h _ (.tail _ (.head _))
    have hl := h _ (.tail _ (.tail _ (.head _)))
    cases c with
    | none =>
      have hparam : ∀ w ∈ [x.name], isAtom w = true := by simpa using hx.isAtom
      exact (hl.speaks sc).bind fun g hg => (hbelow e (.head _) _).bind fun k hk =>
        .ok (.apply (by decide) (.cons (.lambda hparam hk) (.cons hg .nil)))
    | some c =>
      exact yields_filtered (h _ (.head _)) hx hl (h _ (.tail _ (.tail _ (.tail _ (.head _)))))
  | lambda p ps body =>
    obtain ⟨hps, hbody⟩ := forall_mem_append.1 h
    exact yields_lambda hps (hbody _ (.head _))
  | typeCheck p e t =>
    have ht := h _ (.tail _ (.head _))
    rw [code, form]
    exact (hbelow e (.head _) sc).bind fun f hf => .ok (Ty.says_testForm ht.legible hf)
  | cast p e t =>
    have ht := h _ (.tail _ (.head _))
    exact (hbelow e (.head _) sc).bind fun f hf => .ok (Ty.says_castForm ht.legible _ hf)

theorem Else.yields_form : ∀ (e : Else) {t : SExpr} {fallen : Except Fault Form},
    Yields (Says strict t) fallen → (∀ n ∈ e.children, n.All (Node.Told strict target)) →
    Yields (Says strict (e.code sc t)) (e.form target sc fallen)
  | .absent, _, _, hfallen, _ => by
    exact hfallen
  | .final b, _, _, _, h => by
    rw [code, form]
    exact (h _ (.head _)).speaks sc
  | .elseIf c b rest, _, _, hfallen, h => by
    obtain ⟨hc, h⟩ := forall_mem_cons.1 h
    obtain ⟨hb, h⟩ := forall_mem_cons.1 h
    exact (hc.speaks sc).bind fun f hf => (hb.speaks sc).bind fun g hg =>
      (yields_form rest hfallen h).bind fun k hk => .ok (.conditional hf hg hk)

theorem Yields.binding {n : Ident} {e : Expr} {rest : List Stmt} {ts : List SExpr}
    {r : Except Fault (List Form)} (hn : isAtom n.name = true)
    (he : (expr e).All (Node.Told strict target)) (hrest : Yields (Forall₂ (Says strict) ts) r) :
    Yields (Forall₂ (Says strict) [.binding n.name (e.code sc) (match rest with
          | [] => .atom n.name
          | _ :: _ => .sequence ts)])
      (do
        let value ← e.form target sc
        match rest with
        | [] => return [letForm n value none]
        | _ :: _ =>
          let body ← r
          return [letForm n value (some (sequence body))]) := by
  refine (he.speaks sc).bind fun f hf => ?_
  obtain ⟨hlast, hbinding⟩ := Says.binding hn hf
  cases rest with
  | nil => exact .ok (.cons hlast .nil)
  | cons s rest => exact hrest.bind fun fs hfs => .ok (.cons (hbinding (.sequence hfs)) .nil)

theorem Stmt.yields_forms {ss : List Stmt} (h : ∀ s ∈ ss, (stmt s).All (Node.Told strict target)) :
    Yields (Forall₂ (Says strict) (codes sc ss)) (forms target sc ss) := by
  induction ss generalizing sc with
  | nil =>
    exact .ok .nil
  | cons s rest ih =>
    obtain ⟨hs, hrest⟩ := forall_mem_cons.1 h
    cases s with
    | letDecl p n t e | constDecl p n t e =>
      obtain ⟨hn, hbelow⟩ := forall_mem_cons.1 hs.below
      have he := hbelow _ (mem_append_right _ (.head _))
      exact Yields.binding (Node.All.isAtom hn) he (ih hrest)
    | ifStmt p c b more =>
      obtain ⟨hc, hbelow⟩ := forall_mem_cons.1 hs.below
      obtain ⟨hb, hmore⟩ := forall_mem_cons.1 hbelow
      simp only [codes, forms]
      refine (hc.speaks sc).bind fun f hf => (hb.speaks sc).bind fun g hg => ?_
      split
      · exact (Else.yields_form more (Yields.fallen (ih hrest)) hmore).bind fun k hk =>
          .ok (.cons (.conditional hf hg hk) .nil)
      · exact (Else.yields_form more .error hmore).bind fun k hk => (ih hrest).bind fun fs hfs =>
          .ok (.cons (.conditional hf hg hk) hfs)
    | _ =>
      exact (hs.speaks sc).bind fun f hf => (ih hrest).bind fun fs hfs => .ok (.cons hf hfs)

theorem Fn.yields_form {f : Fn} (h : ∀ n ∈ f.children, n.All (Node.Told strict target))
    (exported : Bool) :
    Yields (Says strict (f.code exported)) (f.form target exported) := by
  have hvisibility := isAtom_visibility f exported
  obtain ⟨hn, hps, -, hb⟩ := of_forall_children h
  obtain ⟨p, ds, n, ps, r, b⟩ := f
  cases b with
  | none =>
    exact .error
  | some b =>
    exact (Parameter.yields_forms fun p hp => (hps p hp).legible).bind fun fs hfs =>
      ((hb b rfl).speaks _).bind fun g hg => .ok (.stack (.cons (.atom hvisibility)
        (.cons (.row (.cons (.atom hn.isAtom) hfs)) .nil)) (.cons hg .nil))

theorem Stmt.speaks (hlegible : (stmt s).Legible strict)
    (h : ∀ c ∈ s.children, c.All (Node.Told strict target)) : (stmt s).Speaks strict target := by
  have hlegible' : ∀ c ∈ s.children, c.All (Node.Legible strict) := fun c hc => (h c hc).legible
  intro sc
  cases s with
  | fnDecl f =>
    exact Fn.yields_form h false
  | letDecl p n t e | constDecl p n t e =>
    obtain ⟨hn, hbelow⟩ := forall_mem_cons.1 h
    have he := hbelow _ (mem_append_right _ (.head _))
    rw [code, form]
    exact (he.speaks sc).bind fun f hf => .ok (Says.binding (Node.All.isAtom hn) hf).1
  | mapConst p ds n t e m =>
    exact .ok (MapShape.says_form fun n hn => hlegible' n (mem_append_right _ hn))
  | mapDecl m =>
    rw [code, form]
    exact .ok (MapShape.says_form hlegible')
  | assetDecl p n fields =>
    obtain ⟨hn, hfields⟩ := forall_mem_cons.1 hlegible'
    exact (Parameter.yields_forms (forall_mem_map.1 hfields)).bind fun fs hfs =>
      .ok (.apply (by decide) (.cons (.atom (isAtom_of_ident hn)) hfs))
  | traitDecl p n fs =>
    obtain ⟨hn, hfs⟩ := forall_mem_cons.1 hlegible'
    rw [code, form]
    exact yields_traitForm hn fun f hf => (forall_mem_map.1 hfs f hf).below
  | ifStmt p c b rest =>
    obtain ⟨hc, hbelow⟩ := forall_mem_cons.1 h
    obtain ⟨hb, hrest⟩ := forall_mem_cons.1 hbelow
    exact (hc.speaks sc).bind fun f hf => (hb.speaks sc).bind fun g hg =>
      (Else.yields_form rest .error hrest).bind fun k hk => .ok (.conditional hf hg hk)
  | tryStmt p b n handler =>
    have hn := h _ (.tail _ (.head _))
    have hhandler := h _ (.tail _ (.tail _ (.head _)))
    rw [code, form]
    refine ((h _ (.head _)).speaks sc).bind fun f hf =>
      (hhandler.speaks _).bind fun g hg => .ok ?_
    have hcatch := Says.apply (w := "catch") (by decide) (.cons (.atom hn.isAtom) (.cons hg .nil))
    exact .stack (.cons (.word (by decide)) .nil) (.cons hf (.cons hcatch .nil))
  | throwStmt p e =>
    exact ((h _ (.head _)).speaks sc).bind fun f hf => .ok (.apply (by decide) (.cons hf .nil))
  | returnStmt p e =>
    cases e with
    | none =>
      exact .ok .unit
    | some e =>
      rw [code, form]
      exact (h _ (.head _)).speaks sc
  | exprStmt p e =>
    rw [code, form]
    exact (h _ (.head _)).speaks sc
  | importDecl p names source =>
    have hsource := hlegible
    have hnames := Says.map (k := fun n : Ident => .atom n.name) fun n hn =>
      (.atom (isAtom_of_ident (forall_mem_map.1 hlegible' n hn)) : Says strict _ _)
    exact .ok (.apply (by decide) (rel_append hnames
      (.cons (.key ⟨fun hs => isAtom_append (by decide) (hsource.isAtom hs),
        by simpa using ⟨by decide, hsource.newline_notMem⟩⟩) .nil)))
  | exportDecl p s =>
    rw [code, form]
    exact (h _ (.head _)).speaks sc

/-- **Throughout a part that can be read, forms say the code.** -/
theorem Node.All.told {n : Node} (h : n.All (Legible strict)) (target : Version) :
    n.All (Told strict target) := by
  refine induct (Q := Speaks strict target) h fun n hlegible hbelow => ?_
  cases n with
  | expr e => exact Expr.speaks hlegible hbelow
  | stmt s => exact Stmt.speaks hlegible hbelow
  | block b =>
    obtain ⟨p, ss⟩ := b
    intro sc
    exact (Stmt.yields_forms (forall_mem_map.1 hbelow)).bind fun fs hfs => .ok (.sequence hfs)
  | _ => trivial

/-! ### The top level -/

variable (target)

theorem Ty.legible_ofName {name : String} (h : isName name = true) :
    (type (.ofName name)).All (Node.Legible strict) :=
  all_iff.2 ⟨trivial, forall_mem_singleton.2 (all_iff.2 ⟨h, forall_mem_nil _⟩)⟩

theorem Expr.legible_knownType (h : (expr e).All (Node.Legible strict)) :
    ∀ t ∈ e.knownType [], (type t).All (Node.Legible strict) := by
  have hname {name : String} (hn : isName name = true) :
      ∀ t ∈ some (Ty.ofName name), (type t).All (Node.Legible strict) := by
    rintro _ ⟨⟩
    exact Ty.legible_ofName hn
  have hor {a b : Option Ty} (ha : ∀ t ∈ a, (type t).All (Node.Legible strict))
      (hb : ∀ t ∈ b, (type t).All (Node.Legible strict)) :
      ∀ t ∈ a.or b, (type t).All (Node.Legible strict) := by
    cases a with
    | none => exact hb
    | some t => exact ha
  fun_induction knownType [] e with
  | case1 | case2 | case3 | case6 | case9 | case10 => exact hname (by decide)
  | case4 | case7 | case16 => nofun
  | case5 _ e t =>
    rintro _ ⟨⟩
    exact h.below _ (.tail _ (.head _))
  | case8 _ _ l r _ _ ihl ihr =>
    exact hor (ihl (h.below _ (.head _))) (ihr (h.below _ (.tail _ (.head _))))
  | case11 _ _ e _ ih => exact ih (h.below _ (.head _))
  | case12 _ c t e iht ihe =>
    exact hor (iht (h.below _ (.tail _ (.head _)))) (ihe (h.below _ (.tail _ (.tail _ (.head _)))))
  | case13 _ e property =>
    cases chainValue? e property with
    | none => nofun
    | some c => cases c <;> exact hname (by decide)
  | case14 _ e _ ih | case15 _ e ih =>
    have ih := ih (h.below _ (.head _))
    intro t ht
    obtain ⟨u, hu, rfl⟩ := Option.map_eq_some_iff.1 ht
    exact all_iff.2 ⟨trivial, forall_mem_singleton.2 (ih u hu)⟩

theorem Stmt.yields_topForm : ∀ (s : Stmt) (exported : Bool), (stmt s).All (Node.Legible strict) →
    Yields (Says strict (s.topCode exported)) (s.topForm target exported)
  | .exportDecl _ s, exported, h => by
    exact yields_topForm s true (h.below _ (.head _))
  | .fnDecl f, exported, h => by
    rw [topCode, topForm]
    exact Fn.yields_form (fun n hn => (h.below n hn).told target) exported
  | .letDecl _ n t e, exported, h => by
    obtain ⟨hn, h⟩ := forall_mem_cons.1 h.below
    obtain ⟨ht, he⟩ := forall_mem_append.1 h
    have he := he _ (.head _)
    have htype : ∀ u ∈ t.or (e.knownType []), (type u).All (Node.Legible strict) := by
      cases t with
      | none => exact Expr.legible_knownType he
      | some t => simpa [Ty.optionalNode] using ht
    rw [topCode, topForm, dataVariable]
    generalize t.or (e.knownType []) = known at htype ⊢
    cases known with
    | none => exact .error
    | some u =>
      have hu := Ty.says_form u (htype u rfl)
      exact ((he.told target).speaks []).bind fun f hf => .ok (.apply (by decide)
        (.cons (.atom (isAtom_of_ident hn)) (.cons hu (.cons hf .nil))))
  | .constDecl _ n _ e, exported, h => by
    obtain ⟨hn, h⟩ := forall_mem_cons.1 h.below
    exact (((h _ (mem_append_right _ (.head _))).told target).speaks []).bind fun f hf =>
      .ok (.apply (by decide) (.cons (.atom (isAtom_of_ident hn)) (.cons hf .nil)))
  | .mapConst .., exported, h | .mapDecl _, exported, h | .assetDecl .., exported, h
  | .traitDecl .., exported, h | .ifStmt .., exported, h | .tryStmt .., exported, h
  | .throwStmt .., exported, h | .returnStmt .., exported, h | .exprStmt .., exported, h
  | .importDecl .., exported, h => by
    exact (h.told target).speaks []

namespace Program

variable {r : SExpr.Reader}

theorem stops_renderRest (h : renderRest target ss = .ok text) : SExpr.stops text = true := by
  cases ss with
  | nil =>
    cases h
    rfl
  | cons s ss =>
    obtain ⟨one, -, h⟩ := of_bind_eq_ok h
    obtain ⟨rest, -, h⟩ := of_bind_eq_ok h
    cases h
    split <;> rfl

theorem run_renderOne (hs : (stmt s).All (Node.Legible true))
    (h : renderOne target s = .ok text) (hr : r.mode = .between) {rest : Bytes}
    (hrest : SExpr.stops rest = true) :
    r.run (text ++ rest) = (r.push (s.topCode false)).run rest := by
  obtain ⟨f, hf, htext⟩ := of_bind_eq_ok h
  cases htext
  obtain ⟨hreadable, htree, -⟩ := Stmt.yields_topForm target s false hs f hf
  rw [run_print f (hreadable rfl) 0 hr fun _ => hrest, htree]

theorem run_renderRest (hss : ∀ s ∈ ss, (stmt s).All (Node.Legible true))
    (h : renderRest target ss = .ok text) (hr : r.mode = .between) :
    r.run text = (r.pushAll (ss.map (topCode false))).run [] := by
  induction ss generalizing r text with
  | nil =>
    cases h
    rfl
  | cons s ss ih =>
    obtain ⟨hs, hss⟩ := forall_mem_cons.1 hss
    obtain ⟨one, hone, h⟩ := of_bind_eq_ok h
    obtain ⟨rest, hrest, h⟩ := of_bind_eq_ok h
    cases h
    have hgap : (if s.isSetOff then ofString "\n\n" else ofString "\n").all SExpr.isBlank
        = true := by
      split <;> decide
    rw [append_assoc, SExpr.Reader.run_blanks hr hgap,
      run_renderOne target hs hone hr (stops_renderRest target hrest), ih hss hrest rfl]
    rfl

theorem readAll_of_legible {p : Program} (hp : (program p.statements).All (Node.Legible true))
    {out : Bytes} (h : p.render target = .ok out) :
    SExpr.readAll out = some (p.statements.map (topCode false)) := by
  have hss := forall_mem_map.1 hp.below
  have hfinish (ts : List SExpr) : (({} : SExpr.Reader).pushAll ts).run [] = some ts := by
    rw [SExpr.Reader.pushAll_eq rfl, SExpr.Reader.run, SExpr.Reader.finish]
    simp
  unfold render at h
  split at h
  · next hnil =>
    cases h
    rw [hnil]
    rfl
  · next s ss hcons =>
    obtain ⟨one, hone, h⟩ := of_bind_eq_ok h
    obtain ⟨rest, hrest, h⟩ := of_bind_eq_ok h
    cases h
    rw [hcons] at hss ⊢
    obtain ⟨hs, hss⟩ := forall_mem_cons.1 hss
    rw [SExpr.readAll, run_renderOne target hs hone rfl (stops_renderRest target hrest),
      run_renderRest target hss hrest rfl]
    exact hfinish (s.topCode false :: ss.map (topCode false))

end Program

/-! ### Programs from sources -/

def Node.Clean : Node → Prop
  | .expr (.tuple _ fields) => ∀ f ∈ fields, isAtom f.1 = true
  | .stmt (.importDecl _ _ source) => isAtom (contractOf source) = true
  | _ => True

theorem Node.Legible.of_sound {assets : List Bytes} {n : Node} (hsound : n.Sound assets)
    (hclean : n.Clean) : n.Legible true := by
  unfold Legible
  split
  · exact hsound
  · exact hsound
  · exact fun f hf => .of_isAtom (hclean f hf)
  · exact hsound.1
  · exact hsound.1
  · exact hsound.1
  · exact .of_isAtom hclean
  · trivial

theorem Program.legible {o : Options} {source : Bytes} {p : Program}
    (hp : o.programOrFault source = .ok p) (hclean : (program p.statements).All Node.Clean) :
    (program p.statements).All (Node.Legible true) := by
  obtain ⟨t, ht, hp⟩ := of_bind_eq_ok hp
  exact ((sound_of_parse ht hp).and hclean).imp fun _ h => .of_sound h.1 h.2

/-- The text of a program is read as the translation of its statements, one tree for each of them
and in their order. -/
theorem Program.readAll_render (o : Options) {source : Bytes} {p : Program}
    (hp : o.programOrFault source = .ok p) (hclean : (program p.statements).All Node.Clean)
    (target : Version) {out : Bytes} (hout : p.render target = .ok out) :
    SExpr.readAll out = some (p.statements.map (Stmt.topCode false)) :=
  Program.readAll_of_legible target (Program.legible hp hclean) hout

/-- An import, and a constant with a key and a parenthesis between double quotes. -/
def importAndTuple : Program where
  statements :=
    [.importDecl ⟨1, 1⟩ [⟨"T", ⟨1, 10⟩⟩] "./m.stx",
      .constDecl ⟨1, 30⟩ ⟨"t", ⟨1, 36⟩⟩ none
        (.tuple ⟨1, 40⟩ [("k", .literal "a (b" ⟨1, 46⟩ (.string "a (b"))])]

theorem importAndTuple_readAll :
    ({} : Options).programOrFault
        "import \x7b T \x7d from './m.stx'; const t = \x7b\"k\": \"a (b\"\x7d;" =
        .ok importAndTuple ∧
      (program importAndTuple.statements).All Node.Clean ∧
      importAndTuple.render { major := 1 } = .ok
      "(use-trait T .m)\n(define-constant t (tuple (k \"a (b\")))" ∧
      SExpr.readAll "(use-trait T .m)\n(define-constant t (tuple (k \"a (b\")))" =
        some [.app "use-trait" [.word "T", .word ".m"],
          .app "define-constant" [.word "t", .app "tuple" [.pair "k" (.string "a (b")]]] := by
  have hp : ({} : Options).programOrFault
      "import \x7b T \x7d from './m.stx'; const t = \x7b\"k\": \"a (b\"\x7d;" =
      .ok importAndTuple := by
    cbv
  have hleaf {n : Node} (hn : n.Clean) (hchildren : n.children = []) : n.All Node.Clean :=
    all_iff.2 ⟨hn, by rw [hchildren]; exact forall_mem_nil _⟩
  have hclean : (program importAndTuple.statements).All Node.Clean := by
    refine all_iff.2 ⟨trivial, forall_mem_cons.2 ⟨?_, forall_mem_singleton.2 ?_⟩⟩
    · exact all_iff.2 ⟨by cbv, forall_mem_singleton.2 (hleaf trivial rfl)⟩
    · refine all_iff.2 ⟨trivial, forall_mem_cons.2 ⟨hleaf trivial rfl, ?_⟩⟩
      refine forall_mem_singleton.2 (all_iff.2 ⟨?_, forall_mem_singleton.2 ?_⟩)
      · exact forall_mem_singleton.2 (by decide)
      · exact hleaf trivial rfl
  have hout : importAndTuple.render { major := 1 } =
      .ok "(use-trait T .m)\n(define-constant t (tuple (k \"a (b\")))" := by cbv
  exact ⟨hp, hclean, hout, Program.readAll_render {} hp hclean _ hout⟩

end Covenant
