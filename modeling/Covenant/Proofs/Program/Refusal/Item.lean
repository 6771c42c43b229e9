import Covenant.Proofs.Tree.Format

/-!
# What the builder refuses

A tree that keeps to the format is built, or refused for one of a few reasons, each of which shows
in a subtree: a value or type that is missing, a decorator or an object creation out of place, a
class that is no asset, a map without types, a number out of range, a key that stands twice.
-/

namespace Covenant

open List

/-! ### Reasons -/

/-- The text of the token that a tree starts with, when that is the tree or stands right in it. -/
def Tree.firstWord : Tree → Bytes
  | .leaf t => t.literal
  | .node _ _ (.leaf t :: _) => t.literal
  | .node _ _ _ => []

def Tree.decoratorName (t : Tree) : Bytes :=
  t.firstWord.stripPrefix "@"

def Rule.decorators : Rule → List Bytes
  | .functionDecl => ["public", "readonly", "private"]
  | .constantDecl => ["map"]
  | .assetDecl => ["asset"]
  | _ => []

/-- How messages about a decorator call the declaration of a name. -/
def Rule.declares (name : Bytes) : Rule → Bytes
  | .functionDecl => "function " ++ name
  | .constantDecl => "constant " ++ name
  | .assetDecl => "class declaration"
  | _ => []

/-- The tree by itself is a reason to refuse a program. -/
inductive Tree.Refuses : Tree → Cause → Prop
  /-- A variable or constant without a value. -/
  | noValue {name : Tree}
    (hrule : rule = .variableDecl ∧ what = "variable " ∨ rule = .constantDecl ∧ what = "constant ")
    (hds : ∀ d ∈ ds, d.shape = .decorator) (hname : name.shape = .name)
    (htypes : ∀ t ∈ types, t.shape = .type) :
    Refuses (.node rule p (ds ++ name :: types)) (.missing (what ++ name.firstWord) "value")
  /-- A field of an asset without a type. -/
  | noType {name : Tree} (hname : name.shape = .name) :
    Refuses (.node .assetField p [name]) (.incompletePair ("asset field " ++ name.firstWord))
  | unknownDecorator (h : (Tree.node .decorator p kids).decoratorName ∉
      Diagnostic.knownDecorators) :
    Refuses (.node .decorator p kids)
      (.unknownDecorator (Tree.node .decorator p kids).decoratorName)
  | misplacedNew :
    Refuses (.node .newExpr p kids) (.misplacedNew (Tree.node .newExpr p kids).firstWord)
  /-- A class without decorators. -/
  | plainClass {name : Tree} (hname : name.shape = .name) :
    Refuses (.node .assetDecl p (name :: fields)) (.plainClass name.firstWord)
  /-- A constant that is decorated as a map but has no key and value types. -/
  | untypedMap {name : Tree} (hne : ds ≠ [])
    (hds : ∀ d ∈ ds, d.shape = .decorator ∧ d.decoratorName = Bytes.ofString "map")
    (hname : name.shape = .name) :
    Refuses (.node .constantDecl p (ds ++ name :: more)) (.untypedMap name.firstWord)
  /-- A number out of range. -/
  | tooLarge {t : Token} (h : t.IsTooLarge) : Refuses (.leaf t) (.badNumber t.literal)
  /-- A key that stands twice in a tuple or tuple type. -/
  | duplicate {kids : List Tree}
    (hrule : rule = .tupleLit ∧ what = "tuple literal" ∨ rule = .tupleType ∧ what = "tuple type")
    (h : 2 ≤ (kids.map Tree.firstWord).count key) :
    Refuses (.node rule p kids) (.unexpected ("duplicate field '" ++ key ++ "'") what)
  /-- A known decorator on a declaration that may not have it. -/
  | wrongDecorator {rule : Rule} {d name : Tree}
    (hrule : rule = .functionDecl ∨ rule = .constantDecl ∨ rule = .assetDecl) (hd : d ∈ ds)
    (hshape : d.shape = .decorator) (hknown : d.decoratorName ∈ Diagnostic.knownDecorators)
    (hwrong : d.decoratorName ∉ rule.decorators) :
    Refuses (.node rule p (ds ++ name :: more))
      (.unexpected ("decorator @" ++ d.decoratorName) (rule.declares name.firstWord))
  /-- An object creation as the argument of a decorator. -/
  | newArgument {mark argument : Tree} (h : argument.shape = .creation) :
    Refuses (.node .decorator p [mark, argument]) (.unexpected "new expression" "decorator")

theorem Tree.Refuses.code_mem {t : Tree} {cause : Cause} (h : t.Refuses cause) :
    cause.code ∈ ["BUILD-0002", "BUILD-0003", "BUILD-0004", "BUILD-0005", "BUILD-0006",
      "BUILD-0007", "BUILD-0009", "BUILD-0010"] := by
  cases h <;> simp [Cause.code]

/-- The result has the property, or the fault has a reason in the tree. -/
def Tree.Answers {α : Type} (root : Tree) (x : Except Fault α) (Q : α → Prop) : Prop :=
  match x with
  | .ok a => Q a
  | .error f => ∃ u, root.Contains u ∧ u.Refuses f.cause

namespace Tree.Answers

variable {α β : Type} {root : Tree}

theorem ok {a : α} (h : Q a) : root.Answers (.ok a) Q :=
  h

theorem error {f : Fault} {u : Tree} (hu : root.Contains u) (h : u.Refuses f.cause) :
    root.Answers (.error f) Q :=
  ⟨u, hu, h⟩

theorem bind {k : α → Except Fault β} (h : root.Answers x Q)
    (hk : ∀ a, Q a → root.Answers (k a) R) : root.Answers (x >>= k) R := by
  cases x with
  | ok a => exact hk a h
  | error f => exact h

theorem mono {P : α → Prop} (h : root.Answers x P) (hPQ : ∀ a, P a → Q a) : root.Answers x Q := by
  cases x with
  | ok a => exact hPQ a h
  | error f => exact h

end Tree.Answers

/-! ### Parts of a built program -/

/-- A function that is not part of a trait: it has a body and typed parameters, and no decorators
of other declarations. -/
def Fn.IsComplete (f : Fn) : Prop :=
  f.body.isSome = true ∧ (∀ d ∈ f.decorators, d.name ∈ Rule.functionDecl.decorators) ∧
    ∀ p ∈ f.params, p.type.isSome = true

def Fn.IsSignature (f : Fn) : Prop :=
  f.body = none ∧ f.decorators = [] ∧ f.result.isSome = true ∧ ∀ p ∈ f.params, p.type.isSome = true

def Stmt.IsComplete : Stmt → Prop
  | .fnDecl f => f.IsComplete
  | _ => True

/-- What holds of a part of a program that was built from the tree. -/
def Node.Formed (root : Tree) : Node → Prop
  | .expr (.tuple p fields) => ∃ kids, root.Contains (.node .tupleLit p kids) ∧
    fields.map Prod.fst = kids.map Tree.firstWord
  | .type (.tuple p fields) => ∃ kids, root.Contains (.node .tupleType p kids) ∧
    fields.map Prod.fst = kids.map Tree.firstWord
  | .block b => ∀ s ∈ b.statements, s.IsComplete
  | .program ss => ∀ s ∈ ss, s.IsComplete
  | .stmt (.exportDecl _ s) => s.IsComplete
  | .stmt (.traitDecl _ _ fs) => ∀ f ∈ fs, f.IsSignature
  | .stmt (.assetDecl _ _ fields) => ∀ p ∈ fields, p.type.isSome = true
  | .stmt (.mapConst _ ds _ _ _ _) => ds ≠ [] ∧ ∀ d ∈ ds, d.name = Bytes.ofString "map"
  | _ => True

/-- All parts of it were built from the tree. -/
abbrev Node.FormedBy (root : Tree) (n : Node) : Prop :=
  n.All (Node.Formed root)

def Item.nodes : Item → List Node
  | .node n => [n]
  | .token _ => []
  | .params ps => ps.map .parameter
  | .args es => es.map .expr
  | .field _ e => [.expr e]
  | .typeField _ t => [.type t]
  | .decorator d => d.argument.toList
  | .creation _ n ts => n.node :: ts.map .type
  | .call _ es => es.map .expr
  | .member _ n => [n.node]
  | .typeCheck _ t => [.type t]
  | .cast _ t => [.type t]

def Item.Formed (root : Tree) (it : Item) : Prop :=
  ∀ n ∈ it.nodes, n.FormedBy root

/-- What a tree of the shape becomes, when it starts with the word. -/
def Shape.Fits (word : Bytes) : Shape → Item → Prop
  | .name, it => ∃ n : Ident, n.name = word ∧ it = .ofExpr (.ident n)
  | .text, it => ∃ first p, it = .ofExpr (.literal first p (.string word))
  | .literal, it | .value, it => ∃ e, it = .ofExpr e
  | .mark, it => ∃ t : Token, t.kind = .decorator ∧ t.literal = word ∧ it = .token t
  | .operator, it => ∃ t, it = .token t
  | .creation, it => ∃ p n ts, n.name = word ∧ it = .creation p n ts
  | .type, it => ∃ t, it = .ofType t
  | .typeField, it => ∃ t, it = .typeField word t
  | .field, it => ∃ e, it = .field word e
  | .parameter typed, it =>
    ∃ p : Parameter, (typed = true → p.type.isSome = true) ∧ it = .node (.parameter p)
  | .parameters typed, it =>
    ∃ ps : List Parameter, (typed = true → ∀ p ∈ ps, p.type.isSome = true) ∧ it = .params ps
  | .arguments, it => ∃ es, it = .args es
  | .suffix, it => (∃ p es, it = .call p es) ∨ (∃ p n, it = .member p n) ∨
    (∃ p t, it = .typeCheck p t) ∨ ∃ p t, it = .cast p t
  | .block, it => ∃ b, it = .node (.block b)
  | .statement, it => ∃ s : Stmt, s.IsComplete ∧ it = .ofStmt s
  | .signature, it => ∃ f : Fn, f.IsSignature ∧ it = .ofStmt (.fnDecl f)
  | .decorator, it => ∃ d : Decorator, d.name = word.stripPrefix "@" ∧
    d.name ∈ Diagnostic.knownDecorators ∧ it = .decorator d
  | .assetField, it => ∃ p : Parameter, p.type.isSome = true ∧ it = .node (.parameter p)
  | .other, _ => True

/-- The item is what the tree became. -/
structure Tree.Becomes (root t : Tree) (it : Item) : Prop where
  below : root.Contains t
  fits : t.shape.Fits t.firstWord it
  formed : it.Formed root

/-- Trees of the shapes, each with the item that it became. -/
inductive Tree.Row (root : Tree) : List Shape → List Tree → List Item → Prop
  | nil : Row root [] [] []
  | cons {f : Shape} {fs : List Shape} {x : Tree} {xs : List Tree} {it : Item} {its : List Item}
    (hx : x.shape = f) (h : root.Becomes x it) (hmore : Row root fs xs its) :
    Row root (f :: fs) (x :: xs) (it :: its)

namespace Tree.Becomes

variable {root : Tree}

theorem row (h : Forall₂ root.Becomes kids items) (hk : kids.map shape = fs) :
    root.Row fs kids items := by
  subst hk
  induction h with
  | nil => exact .nil
  | cons hx _ ih => exact .cons rfl hx ih

theorem append (h : Forall₂ root.Becomes kids items) (hk : kids.map shape = fs ++ gs) :
    ∃ xs ys its jts, kids = xs ++ ys ∧ items = its ++ jts ∧ Forall₂ root.Becomes xs its ∧
      Forall₂ root.Becomes ys jts ∧ xs.map shape = fs ∧ ys.map shape = gs := by
  obtain ⟨xs, ys, rfl, hxs, hys⟩ := map_eq_append_iff.1 hk
  have hsplit : ∃ its jts, items = its ++ jts ∧ Forall₂ root.Becomes xs its ∧
      Forall₂ root.Becomes ys jts := by
    clear hxs hk
    induction xs generalizing items with
    | nil => exact ⟨[], items, rfl, .nil, h⟩
    | cons x xs ih =>
      cases h with
      | cons hx h =>
        obtain ⟨its, jts, rfl, hits, hjts⟩ := ih h
        exact ⟨_ :: its, jts, rfl, .cons hx hits, hjts⟩
  obtain ⟨its, jts, rfl, hits, hjts⟩ := hsplit
  exact ⟨xs, ys, its, jts, rfl, rfl, hits, hjts, hxs, hys⟩

end Tree.Becomes

variable {items : List Item} {kids : List Tree} {root : Tree}

theorem Tree.Row.becomes (h : root.Row fs kids items) :
    Forall₂ root.Becomes kids items ∧ kids.map shape = fs := by
  induction h with
  | nil => exact ⟨.nil, rfl⟩
  | cons hx h _ ih => exact ⟨.cons h ih.1, by rw [map_cons, hx, ih.2]⟩

/-! ### Shapes and words -/

namespace Tree

variable {t : Tree}

theorem exists_leaf_of_shape (h : t.shape = .name ∨ t.shape = .text ∨ t.shape = .mark) :
    ∃ u, t = .leaf u := by
  cases t with
  | leaf u => exact ⟨u, rfl⟩
  | node rule p kids => cases rule <;> simp [shape] at h

theorem firstWord_node {rule : Rule} (h : t.shape = .name ∨ t.shape = .text ∨ t.shape = .mark) :
    (node rule p (t :: ts)).firstWord = t.firstWord := by
  obtain ⟨u, rfl⟩ := exists_leaf_of_shape h
  rfl

theorem exists_newExpr_of_shape (h : t.shape = .creation) :
    ∃ p kids, t = .node .newExpr p kids := by
  cases t with
  | leaf u =>
    simp only [shape] at h
    split at h <;> cases h
  | node rule p kids =>
    cases rule
    case newExpr => exact ⟨p, kids, rfl⟩
    all_goals cases h

end Tree

theorem Shape.isValue_cases {f : Shape} (h : f.isValue = true) :
    f = .name ∨ f = .value ∨ f = .creation := by
  simpa [isValue, or_assoc] using h

/-! ### Taking items -/

theorem Item.formed_node {n : Node} (hself : n.Formed root)
    (hbelow : ∀ c ∈ n.children, c.FormedBy root) : (node n).Formed root :=
  forall_mem_singleton.2 (Node.all_iff.2 ⟨hself, hbelow⟩)

namespace Tree.Becomes

variable {root x : Tree} {it : Item}

section

variable (h : root.Becomes x it)

include h

theorem name (hx : x.shape = .name) :
    ∃ n : Ident, n.name = x.firstWord ∧ it = .ofExpr (.ident n) ∧ n.node.FormedBy root := by
  have hfits := h.fits
  rw [hx] at hfits
  obtain ⟨n, hn, rfl⟩ := hfits
  exact ⟨n, hn, rfl, h.formed _ (.head _)⟩

theorem type (hx : x.shape = .type) : ∃ t, it = .ofType t ∧ (Node.type t).FormedBy root := by
  have hfits := h.fits
  rw [hx] at hfits
  obtain ⟨t, rfl⟩ := hfits
  exact ⟨t, rfl, h.formed _ (.head _)⟩

theorem block (hx : x.shape = .block) :
    ∃ b, it = .node (.block b) ∧ (Node.block b).FormedBy root := by
  have hfits := h.fits
  rw [hx] at hfits
  obtain ⟨b, rfl⟩ := hfits
  exact ⟨b, rfl, h.formed _ (.head _)⟩

theorem params {typed : Bool} (hx : x.shape = .parameters typed) :
    ∃ ps : List Parameter, (typed = true → ∀ p ∈ ps, p.type.isSome = true) ∧ it = .params ps ∧
      ∀ p ∈ ps, (Node.parameter p).FormedBy root := by
  have hfits := h.fits
  rw [hx] at hfits
  obtain ⟨ps, hps, rfl⟩ := hfits
  exact ⟨ps, hps, rfl, forall_mem_map.1 h.formed⟩

theorem statement (hx : x.shape = .statement) :
    ∃ s : Stmt, s.IsComplete ∧ it = .ofStmt s ∧ (Node.stmt s).FormedBy root := by
  have hfits := h.fits
  rw [hx] at hfits
  obtain ⟨s, hs, rfl⟩ := hfits
  exact ⟨s, hs, rfl, h.formed _ (.head _)⟩

theorem exists_of_isValue (hx : x.shape.isValue = true) :
    (∃ e, it = .ofExpr e) ∨ ∃ p n ts, it = .creation p n ts ∧ x.shape = .creation := by
  have hfits := h.fits
  obtain hx | hx | hx := Shape.isValue_cases hx
  · rw [hx] at hfits
    obtain ⟨n, -, rfl⟩ := hfits
    exact .inl ⟨_, rfl⟩
  · rw [hx] at hfits
    exact .inl hfits
  · rw [hx] at hfits
    obtain ⟨p, n, ts, -, rfl⟩ := hfits
    exact .inr ⟨p, n, ts, rfl, hx⟩

theorem answers_expr (hx : x.shape.isValue = true) (s : Site) :
    root.Answers (s.expr it) fun e => (Node.expr e).FormedBy root := by
  obtain ⟨e, rfl⟩ | ⟨p, n, ts, rfl, hx⟩ := h.exists_of_isValue hx
  · exact .ok (h.formed _ (.head _))
  · have hfits := h.fits
    obtain ⟨q, kids, rfl⟩ := exists_newExpr_of_shape hx
    obtain ⟨_, _, _, hn, heq⟩ := hfits
    cases heq
    refine .error h.below ?_
    rw [hn]
    exact .misplacedNew

end

end Tree.Becomes

theorem Tree.answers_mapM {β : Type}
    {f : Item → Except Fault β} {Q : β → Prop} (h : Forall₂ root.Becomes kids items)
    (hf : ∀ x ∈ kids, ∀ it, root.Becomes x it → root.Answers (f it) Q) :
    root.Answers (items.mapM f) fun bs => ∀ b ∈ bs, Q b := by
  induction h with
  | nil => exact .ok (forall_mem_nil _)
  | cons hx _ ih =>
    rw [mapM_cons]
    refine (hf _ mem_cons_self _ hx).bind fun b hb => ?_
    refine (ih fun x hx => hf x (mem_cons_of_mem _ hx)).bind fun bs hbs => ?_
    exact .ok (forall_mem_cons.2 ⟨hb, hbs⟩)

theorem Tree.answers_exprs (h : Forall₂ root.Becomes kids items)
    (hk : ∀ f ∈ kids.map shape, f.isValue = true) (s : Site) :
    root.Answers (s.exprs items) fun es => ∀ e ∈ es, (Node.expr e).FormedBy root :=
  answers_mapM h fun _ hx _ hit => hit.answers_expr (hk _ (mem_map_of_mem hx)) s

/-- The rule has a use for all subtrees that the format admits: it is built, or refused for a reason
in the tree. -/
def Rule.Agrees (rule : Rule) : Prop :=
  ∀ {assets : List Bytes} {root : Tree} {p : Pos} {kids : List Tree} {items : List Item},
    root.Contains (.node rule p kids) → Forall₂ root.Becomes kids items →
    rule.Takes (kids.map Tree.shape) →
    root.Answers (Site.build assets ⟨rule, p⟩ items) fun it =>
      (Tree.node rule p kids).shape.Fits (Tree.node rule p kids).firstWord it ∧ it.Formed root

/-! ### Outcomes -/

namespace Tree.Answers

variable {root t : Tree}

theorem ofType (ht : t.shape = .type) (h : (Item.ofType ty).Formed root) :
    root.Answers (.ok (.ofType ty)) fun it => t.shape.Fits t.firstWord it ∧ it.Formed root := by
  rw [ht]
  exact .ok ⟨⟨ty, rfl⟩, h⟩

theorem ofExpr {e : Expr} (ht : t.shape = .value) (h : (Item.ofExpr e).Formed root) :
    root.Answers (.ok (.ofExpr e)) fun it => t.shape.Fits t.firstWord it ∧ it.Formed root := by
  rw [ht]
  exact .ok ⟨⟨e, rfl⟩, h⟩

theorem ofStmt {s : Stmt} (ht : t.shape = .statement) (hs : s.IsComplete)
    (h : (Item.ofStmt s).Formed root) :
    root.Answers (.ok (.ofStmt s)) fun it => t.shape.Fits t.firstWord it ∧ it.Formed root := by
  rw [ht]
  exact .ok ⟨⟨s, hs, rfl⟩, h⟩

end Tree.Answers

end Covenant
