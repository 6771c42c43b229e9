import Covenant.Proofs.Number.Range
import Covenant.Proofs.Tree.Derivation.Source

/-!
# The format of parse trees

What the subtrees of each rule look like.  A rule sees of a subtree only its shape: a name, a value,
a type and so on; `Rule.Takes` says which shapes may stand below a rule, and in which order.
-/

namespace Covenant

open List Tree

/-! ### Subtrees -/

/-- The second tree is the first one, or lies in it. -/
inductive Tree.Contains : Tree → Tree → Prop
  | refl (t : Tree) : Contains t t
  | kid (ht : t ∈ kids) (h : Contains t u) : Contains (.node rule p kids) u

variable {t : Tree}

theorem Tree.Contains.trans (h : t.Contains u) (h' : u.Contains v) : t.Contains v := by
  induction h with
  | refl _ => exact h'
  | kid ht _ ih => exact .kid ht (ih h')

/-! ### Shapes -/

/-- What a rule sees of a subtree. -/
inductive Shape where
  /-- A name. -/
  | name
  /-- A string. -/
  | text
  /-- Another literal token. -/
  | literal
  /-- The token of a decorator. -/
  | mark
  /-- Any other token. -/
  | operator
  /-- An expression of more than a name. -/
  | value
  /-- The creation of an object. -/
  | creation
  | type
  /-- A named part of a tuple type. -/
  | typeField
  /-- A named part of a tuple. -/
  | field
  | parameter (typed : Bool)
  /-- Parameters, and whether all of them have types. -/
  | parameters (typed : Bool)
  | arguments
  /-- A call, member access, type test or type assertion. -/
  | suffix
  | block
  | statement
  /-- A function of a trait. -/
  | signature
  | decorator
  | assetField
  | other
  deriving DecidableEq

def Shape.isValue (f : Shape) : Bool :=
  f = .name || f = .value || f = .creation

def Tree.isTyped : Tree → Bool
  | .node .parameter _ kids => kids.length = 2
  | _ => false

def Tree.shape : Tree → Shape
  | .leaf t =>
    match t.kind with
    | .ident => .name
    | .string => .text
    | .int | .float | .kwTrue | .kwFalse | .kwNone | .principal => .literal
    | .decorator => .mark
    | _ => .operator
  | .node rule p kids =>
    match rule with
    | .functionDecl | .variableDecl | .constantDecl | .mapDecl | .assetDecl | .traitDecl
    | .exprStmt | .ifStmt | .tryStmt | .throwStmt | .returnStmt | .importDecl | .exportDecl =>
      .statement
    | .signature => .signature
    | .decorator => .decorator
    | .assetField => .assetField
    | .block => .block
    | .parameter => .parameter (isTyped (.node .parameter p kids))
    | .parameters => .parameters (kids.all isTyped)
    | .arguments => .arguments
    | .assignment | .conditional | .binary _ | .unary | .suffixed | .listLit | .tupleLit
    | .comprehension | .lambda | .literal => .value
    | .newExpr => .creation
    | .call | .member | .isSuffix | .asSuffix => .suffix
    | .tupleItem => .field
    | .tupleTypeItem => .typeField
    | .namedType | .listType | .tupleType | .optionalType | .responseType => .type
    | .program | .other _ => .other

/-! ### Formats of rules -/

/-- The shapes are a sequence of groups that the predicate admits. -/
inductive Shape.Repeats (P : List Shape → Prop) : List Shape → Prop
  | nil : Repeats P []
  | append (h : P fs) (hmore : Repeats P gs) : Repeats P (fs ++ gs)

/-- Conditions and blocks in turn, and perhaps a block at the end. -/
inductive Shape.Branches : List Shape → Prop
  | nil : Branches []
  | otherwise : Branches [.block]
  | elseIf {f : Shape} (hf : f.isValue = true) (h : Branches fs) : Branches (f :: .block :: fs)

def Shape.Operation (fs : List Shape) : Prop :=
  ∃ f : Shape, f.isValue = true ∧ fs = [.operator, f]

def Rule.Takes : Rule → List Shape → Prop
  | .program, fs | .block, fs => ∀ f ∈ fs, f = .statement
  | .functionDecl, fs => ∃ ds rs, fs = ds ++ .name :: .parameters true :: (rs ++ [.block]) ∧
    (∀ d ∈ ds, d = .decorator) ∧ (rs = [] ∨ rs = [.type])
  | .decorator, fs => fs = [.mark] ∨ ∃ f : Shape, (f.isValue = true ∨ f = .type) ∧ fs = [.mark, f]
  | .variableDecl, fs => ∃ ts vs, fs = .name :: (ts ++ vs) ∧ (ts = [] ∨ ts = [.type]) ∧
    (vs = [] ∨ ∃ v : Shape, v.isValue = true ∧ vs = [v])
  | .constantDecl, fs => ∃ ds ts vs, fs = ds ++ .name :: (ts ++ vs) ∧
    (∀ d ∈ ds, d = .decorator) ∧ (ts = [] ∨ ts = [.type]) ∧
    (vs = [] ∨ ∃ v : Shape, v.isValue = true ∧ vs = [v])
  | .mapDecl, fs => fs = [.type, .type, .name]
  | .assetDecl, fs => ∃ ds gs, fs = ds ++ .name :: gs ∧ (∀ d ∈ ds, d = .decorator) ∧
    ∀ g ∈ gs, g = .assetField
  | .assetField, fs | .parameter, fs => fs = [.name] ∨ fs = [.name, .type]
  | .traitDecl, fs => ∃ gs, fs = .name :: gs ∧ ∀ g ∈ gs, g = .signature
  | .signature, fs => fs = [.name, .parameters true, .type]
  | .exprStmt, fs | .throwStmt, fs => ∃ f : Shape, f.isValue = true ∧ fs = [f]
  | .ifStmt, fs => ∃ (f : Shape) (gs : _), f.isValue = true ∧ Shape.Branches gs ∧
      fs = f :: .block :: gs
  | .tryStmt, fs => fs = [.block, .name, .block]
  | .returnStmt, fs => fs = [] ∨ ∃ f : Shape, f.isValue = true ∧ fs = [f]
  | .importDecl, fs => ∃ ns, fs = ns ++ [.text] ∧ ns ≠ [] ∧ ∀ n ∈ ns, n = .name
  | .exportDecl, fs => fs = [.statement]
  | .parameters, fs => ∀ f ∈ fs, ∃ typed, f = .parameter typed
  | .arguments, fs | .call, fs | .listLit, fs => ∀ f ∈ fs, f.isValue = true
  | .assignment, fs => ∃ f g : Shape, f.isValue = true ∧ g.isValue = true ∧ fs = [f, g]
  | .conditional, fs => ∃ f g h : Shape, f.isValue = true ∧ g.isValue = true ∧ h.isValue = true ∧
    fs = [f, g, h]
  | .binary _, fs => ∃ (f : Shape) (gs : _), f.isValue = true ∧ Shape.Repeats Shape.Operation gs ∧
      fs = f :: gs
  | .unary, fs => Shape.Operation fs
  | .suffixed, fs => ∃ (f : Shape) (gs : _), f.isValue = true ∧ fs = f :: gs ∧ ∀ g ∈ gs, g = .suffix
  | .member, fs | .namedType, fs => fs = [.name]
  | .isSuffix, fs | .asSuffix, fs | .listType, fs | .optionalType, fs => fs = [.type]
  | .responseType, fs => fs = [.type, .type]
  | .tupleLit, fs => ∀ f ∈ fs, f = .field
  | .tupleItem, fs => ∃ k f : Shape, (k = .name ∨ k = .text) ∧ f.isValue = true ∧ fs = [k, f]
  | .comprehension, fs => ∃ (f g : Shape) (cs : _), f.isValue = true ∧ g.isValue = true ∧
    (cs = [] ∨ ∃ c : Shape, c.isValue = true ∧ cs = [c]) ∧ fs = f :: .name :: g :: cs
  | .lambda, fs => ∃ (typed : Bool) (f : Shape), (f = .block ∨ f.isValue = true) ∧
      fs = [.parameters typed, f]
  | .newExpr, fs => ∃ ts, fs = .name :: (ts ++ [.arguments]) ∧ ∀ t ∈ ts, t = .type
  | .literal, fs => fs = [.literal] ∨ fs = [.text]
  | .tupleType, fs => ∀ f ∈ fs, f = .typeField
  | .tupleTypeItem, fs => fs = [.name, .type]
  | .other _, _ => False

/-- The tree keeps to the format of its rules, and its tokens have the property. -/
inductive Tree.Formed (P : Token → Prop) : Tree → Prop
  | leaf {t : Token} (h : P t) : Formed P (.leaf t)
  | node {rule : Rule} {kids : List Tree} (h : rule.Takes (kids.map Tree.shape))
    (hkids : ∀ t ∈ kids, Formed P t) : Formed P (.node rule p kids)

/-! ### Shapes of phrases -/

def Phrase.Gives : Phrase → List Shape → Prop
  | .ending _, fs => fs = []
  | .optional _ N, fs => fs = [] ∨ N.Gives fs
  | .many N, fs | .separated _ N, fs | .tail _ _ N, fs | .delimited _ _ N, fs =>
    Shape.Repeats N.Gives fs
  | .name, fs => fs = [.name]
  | .type, fs => fs = [.type]
  | .typeField, fs => fs = [.typeField]
  | .block, fs => fs = [.block]
  | .parameter typed, fs => ∃ b, (typed = true → b = true) ∧ fs = [.parameter b]
  | .parameters typed, fs => ∃ b, (typed = true → b = true) ∧ fs = [.parameters b]
  | .lambdaBody, fs => ∃ f : Shape, (f = .block ∨ f.isValue = true) ∧ fs = [f]
  | .tupleItem, fs => fs = [.field]
  | .primary, fs | .suffixed, fs | .unary, fs | .binary _, fs | .conditional, fs
  | .expression, fs => ∃ f : Shape, f.isValue = true ∧ fs = [f]
  | .suffix, fs => fs = [.suffix]
  | .operation _ _, fs => Shape.Operation fs
  | .decorator, fs => fs = [.decorator]
  | .assetField, fs => fs = [.assetField]
  | .signature, fs => fs = [.signature]
  | .guarded, fs => ∃ f : Shape, f.isValue = true ∧ fs = [f, .block]
  | .branches, fs => Shape.Branches fs
  | .statement, fs => fs = [.statement]

namespace Shape.Repeats

theorem forall_mem {Q : Shape → Prop} (h : Repeats P fs) (hP : ∀ gs, P gs → ∃ f, Q f ∧ gs = [f]) :
    ∀ f ∈ fs, Q f := by
  induction h with
  | nil => exact forall_mem_nil _
  | append h _ ih =>
    obtain ⟨f, hf, rfl⟩ := hP _ h
    exact forall_mem_cons.2 ⟨hf, ih⟩

end Shape.Repeats

theorem Grammar.constructor?_cases {name : Bytes} {rule : Rule}
    (h : constructor? name = some (rule, n)) :
    (rule = .listType ∨ rule = .optionalType) ∧ n = 1 ∨ rule = .responseType ∧ n = 2 := by
  unfold constructor? at h
  grind

theorem Level.shape_operator {level : Level} {t : Token} (h : t.kind ∈ level.operators) :
    (leaf t).shape = .operator := by
  cases level <;> simp only [operators, mem_cons, not_mem_nil, or_false] at h <;>
    grind [shape]

theorem Tree.isTyped_iff : t.isTyped = true ↔ t.shape = .parameter true := by
  cases t with
  | leaf t =>
    simp only [isTyped, shape]
    grind
  | node rule p kids => cases rule <;> simp [isTyped, shape]

theorem Derives.gives (h : Derives N ts w) : N.Gives (ts.map shape) := by
  induction h
  all_goals simp only [Phrase.Gives, map_append, map_cons, map_nil] at *
  case last ih =>
    rw [← append_nil (map _ _)]
    exact .append ih .nil
  case appliedType hrule _ _ _ =>
    obtain ⟨rfl | rfl, -⟩ | ⟨rfl, -⟩ := Grammar.constructor?_cases hrule <;> rfl
  case parameter ts _ _ _ _ _ _ htyped ih =>
    refine ⟨_, fun ht => ?_, rfl⟩
    have hlength : (ts.map shape).length = 1 := by
      rw [ih.resolve_left fun h => htyped ht (map_eq_nil_iff.1 h)]
      rfl
    rw [length_map] at hlength
    simp [isTyped, hlength]
  case parameters ih =>
    refine ⟨_, fun ht => all_eq_true.2 fun x hx => ?_, rfl⟩
    have hall := ih.forall_mem (Q := (· = .parameter true)) fun gs hgs => by
      obtain ⟨b, hb, rfl⟩ := hgs
      exact ⟨_, by rw [hb ht], rfl⟩
    exact isTyped_iff.2 (hall _ (mem_map_of_mem hx))
  case operation hop _ ih =>
    obtain ⟨f, hf, he⟩ := ih
    exact ⟨f, hf, by rw [Level.shape_operator hop, List.cons.inj he |>.1]⟩
  all_goals
    grind [shape, Shape.isValue, TokenKind.literals, Shape.Repeats, Shape.Branches]

namespace Derives

variable {ts : List Tree} {u : Token} {w : List Token} {N : Phrase} {mark close : TokenKind}
    {P : Token → Prop}

theorem shape_name (h : u.kind = .ident) : (leaf u).shape = .name := by rw [shape, h]

theorem shape_type (h : Derives .type [t] w) : t.shape = .type :=
  (List.cons.inj h.gives).1

theorem shape_block (h : Derives .block [t] w) : t.shape = .block :=
  (List.cons.inj h.gives).1

theorem shape_parameters (h : Derives (.parameters true) [t] w) : t.shape = .parameters true := by
  obtain ⟨b, hb, heq⟩ := h.gives
  rw [← hb rfl]
  exact (List.cons.inj heq).1

theorem shape_lambdaBody (h : Derives .lambdaBody [t] w) :
    t.shape = .block ∨ t.shape.isValue = true := by
  obtain ⟨f, hf, heq⟩ := h.gives
  rwa [(List.cons.inj heq).1]

theorem isValue (h : Derives N [t] w)
    (hN : N.Gives [t.shape] → ∃ f : Shape, f.isValue = true ∧ [t.shape] = [f]) :
    t.shape.isValue = true := by
  obtain ⟨f, hf, heq⟩ := hN h.gives
  rwa [(List.cons.inj heq).1]

theorem optional_type (h : Derives (.optional mark .type) ts w) :
    ts.map shape = [] ∨ ts.map shape = [.type] :=
  h.gives

theorem optional_value (h : Derives (.optional mark .expression) ts w) :
    ts.map shape = [] ∨ ∃ f : Shape, f.isValue = true ∧ ts.map shape = [f] :=
  h.gives

theorem forall_shape (h : Shape.Repeats N.Gives (ts.map shape))
    (hN : ∀ fs, N.Gives fs → fs = [f]) : ∀ g ∈ ts.map shape, g = f :=
  h.forall_mem fun fs hfs => ⟨f, rfl, hN fs hfs⟩

theorem forall_isValue (h : Shape.Repeats Phrase.expression.Gives (ts.map shape)) :
    ∀ g ∈ ts.map shape, g.isValue = true :=
  h.forall_mem fun _ hfs => hfs

theorem types_of_optional (h : Derives (.optional mark (.separated close .type)) ts w) :
    ∀ g ∈ ts.map shape, g = .type := by
  obtain hnil | hmore := h.gives
  · rw [hnil]
    exact forall_mem_nil _
  · exact forall_shape hmore fun _ h => h

theorem names_ne_nil (h : Derives (.separated close .name) ts w) : ts ≠ [] := by
  cases h with
  | last h _ | comma h _ _ =>
    cases h
    exact cons_ne_nil _ _

theorem formed_node {rule : Rule} {kids : List Tree}
    (h : rule.Takes (kids.map shape)) (hkids : ∀ t ∈ kids, t.Formed P := by grind) :
    ∀ x ∈ [node rule p kids], x.Formed P :=
  forall_mem_singleton.2 (.node h hkids)

attribute [local grind ←] Tree.Formed.leaf in
attribute [local simp] Rule.Takes in
theorem formed (h : Derives N ts w) (hw : ∀ t ∈ w, P t) : ∀ x ∈ ts, x.Formed P := by
  induction h
  all_goals try simp only [forall_mem_cons, forall_mem_append] at hw
  case namedType ht => exact formed_node (by simp [shape_name ht])
  case appliedType ts _ hrule _ h _ =>
    refine formed_node ?_
    have htypes := forall_shape h.gives fun _ h => h
    obtain ⟨rfl | rfl, hlength⟩ | ⟨rfl, hlength⟩ := Grammar.constructor?_cases hrule
    · obtain ⟨x, rfl⟩ := length_eq_one_iff.1 hlength
      simpa using htypes
    · obtain ⟨x, rfl⟩ := length_eq_one_iff.1 hlength
      simpa using htypes
    · obtain ⟨x, y, rfl⟩ := length_eq_two.1 hlength
      simpa using htypes
  case tupleType h _ => exact formed_node (forall_shape h.gives fun _ h => h)
  case typeField ht _ h _ => exact formed_node (by simp [shape_name ht, h.shape_type])
  case block h _ _ => exact formed_node (forall_shape h.gives fun _ h => h)
  case parameter ht h _ _ =>
    refine formed_node ?_
    obtain h | h := h.optional_type <;> simp [shape_name ht, h]
  case parameters h _ =>
    refine formed_node (h.gives.forall_mem fun fs hfs => ?_)
    obtain ⟨b, -, heq⟩ := hfs
    exact ⟨_, ⟨b, rfl⟩, heq⟩
  case tupleItem k _ hk _ h _ =>
    refine formed_node ⟨_, _, ?_, h.isValue id, rfl⟩
    obtain hk | hk := hk <;> simp [shape, hk]
  case literal ht =>
    refine formed_node ?_
    simp only [TokenKind.literals, mem_cons, not_mem_nil, or_false] at ht
    obtain h | h | h | h | h | h | h := ht <;> simp [shape, h]
  case bareLambda ht _ h _ =>
    refine formed_node ⟨_, _, h.shape_lambdaBody, rfl⟩ (forall_mem_cons.2 ⟨?_, by grind⟩)
    refine .node ?_ (formed_node (by simp [shape_name ht]) (by grind))
    exact forall_mem_singleton.2 ⟨_, rfl⟩
  case lambda hparams _ h _ _ =>
    obtain ⟨b, -, heq⟩ := hparams.gives
    refine formed_node ⟨b, _, h.shape_lambdaBody, ?_⟩
    rw [map_cons, (List.cons.inj heq).1]
    rfl
  case emptyList => exact formed_node (forall_mem_nil _) (forall_mem_nil _)
  case list h hmore _ _ =>
    exact formed_node (forall_mem_cons.2 ⟨h.isValue id, forall_isValue hmore.gives⟩)
  case comprehension h _ hx _ hiterable hcondition _ _ _ _ =>
    refine formed_node ⟨_, _, _, h.isValue id, hiterable.isValue id, hcondition.optional_value, ?_⟩
    simp [shape_name hx]
  case tuple h _ => exact formed_node (forall_shape h.gives fun _ h => h)
  case creation ht htypes _ h _ _ =>
    refine formed_node ⟨_, ?_, htypes.types_of_optional⟩ ?_
    · simp [shape_name ht, show ∀ p kids, (node .arguments p kids).shape =
        .arguments from fun _ _ => rfl]
    · have hargs : ∀ p, Tree.Formed P (.node .arguments p _) := fun p =>
        .node (forall_isValue h.gives) (by grind)
      grind
  case call h _ => exact formed_node (forall_isValue h.gives)
  case member ht => exact formed_node (by simp [shape_name ht])
  case typeCheck h _ => exact formed_node (by simp [h.shape_type])
  case cast h _ => exact formed_node (by simp [h.shape_type])
  case suffixed h hmore _ _ =>
    exact formed_node ⟨_, _, h.isValue id, rfl, forall_shape hmore.gives fun _ h => h⟩
  case sign ht h _ =>
    refine formed_node ⟨_, h.isValue id, ?_⟩
    obtain ht | ht := ht <;> simp [shape, ht]
  case operations h hmore _ _ _ => exact formed_node ⟨_, _, h.isValue id, hmore.gives, rfl⟩
  case conditional h _ hyes _ hno _ _ _ =>
    exact formed_node ⟨_, _, _, h.isValue id, hyes.isValue id, hno.isValue id, rfl⟩
  case assignment h _ hright _ _ => exact formed_node ⟨_, _, h.isValue id, hright.isValue id, rfl⟩
  case decorator ht => exact formed_node (.inl (by simp [shape, ht]))
  case decoratorExpression ht _ h _ _ =>
    exact formed_node (.inr ⟨_, .inl (h.isValue id), by simp [shape, ht]⟩)
  case decoratorType ht _ h _ _ =>
    exact formed_node (.inr ⟨_, .inr h.shape_type, by simp [shape, ht]⟩)
  case functionDecl hds _ ht hparams hresult hbody _ _ _ _ =>
    refine formed_node ⟨_, _, ?_, forall_shape hds.gives fun _ h => h, hresult.optional_type⟩
    simp [shape_name ht, hparams.shape_parameters, hbody.shape_block]
  case variableDecl ht htype hvalue _ _ _ _ =>
    refine formed_node ⟨_, _, ?_, htype.optional_type, hvalue.optional_value⟩
    simp [shape_name ht]
  case constantDecl hds _ ht htype hvalue _ _ _ _ _ =>
    refine formed_node ⟨_, _, _, ?_, forall_shape hds.gives fun _ h => h, htype.optional_type,
      hvalue.optional_value⟩
    simp [shape_name ht]
  case assetField ht htype _ _ _ =>
    refine formed_node ?_
    obtain h | h := htype.optional_type <;> simp [shape_name ht, h]
  case assetDecl hds _ ht _ h _ _ _ =>
    refine formed_node ⟨_, _, ?_, forall_shape hds.gives fun _ h => h,
      forall_shape h.gives fun _ h => h⟩
    simp [shape_name ht]
  case signature ht hparams _ hresult _ _ _ _ =>
    exact formed_node (by simp [shape_name ht, hparams.shape_parameters, hresult.shape_type])
  case traitDecl ht _ h _ _ =>
    refine formed_node ⟨_, ?_, forall_shape h.gives fun _ h => h⟩
    simp [shape_name ht]
  case mapDecl h ht _ _ _ =>
    refine formed_node ?_
    have htypes := forall_shape h.gives fun _ h => h
    simpa [shape_name ht] using htypes
  case namedMapDecl ht _ _ _ h _ _ _ =>
    refine formed_node ?_
    have htypes := forall_shape h.gives fun _ h => h
    simpa [shape_name ht] using htypes
  case importDecl h _ hs _ _ _ =>
    refine formed_node ⟨_, ?_, ?_, forall_shape h.gives fun _ h => h⟩
    · simp [shape, hs]
    · simpa using h.names_ne_nil
  case ifStmt h hmore _ _ =>
    obtain ⟨f, hf, heq⟩ := h.gives
    refine formed_node ⟨f, _, hf, hmore.gives, ?_⟩
    rw [map_append, heq]
    rfl
  case tryStmt h _ _ ht _ hhandler _ _ =>
    exact formed_node (by simp [shape_name ht, h.shape_block, hhandler.shape_block])
  case throwStmt h _ _ _ => exact formed_node ⟨_, h.isValue id, rfl⟩
  case returnNothing => exact formed_node (.inl rfl) (forall_mem_nil _)
  case returnStmt h _ _ _ => exact formed_node (.inr ⟨_, h.isValue id, rfl⟩)
  case exportDecl h _ => exact formed_node h.gives
  case exprStmt h _ _ _ => exact formed_node ⟨_, h.isValue id, rfl⟩
  all_goals grind

end Derives

/-- **The trees of sources keep to the format.** -/
theorem Tree.formed_parse {source : Bytes} (h : parse source = .ok t) :
    t.Formed Token.IsWritten := by
  obtain ⟨p, stmts, ts, e, v, rfl, hscan, -, -, hsplit, hderives⟩ := derives_parse h
  have hwritten : ∀ u ∈ ts, u.IsWritten := by
    intro u hu
    have hmem : u ∈ Token.scan source := hscan ▸ mem_append_left _ hu
    exact Token.isWritten_of_mem_scan hmem
  refine .node (Derives.forall_shape hderives.gives fun _ h => h) (hderives.formed ?_)
  exact hsplit.forall_of_forall hwritten (fun _ _ => ⟨nofun, nofun⟩) fun _ _ => ⟨nofun, nofun⟩

end Covenant
