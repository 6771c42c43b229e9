import Covenant.Proofs.Diagnostic
import Covenant.Proofs.Tree.Likeness

/-!
# The grammar as a relation

Which tokens make which trees, said without a parser.  A phrase is a rule of the language or a
sequence of them; `Derives` gives the productions.  Parentheses around an expression, keywords and
punctuation leave no tree.  The halves of a `>>` that closes type arguments are tokens of their own.
-/

namespace Covenant

open List Parser

/-! ### Productions -/

/-- The kinds of phrases. -/
inductive Phrase where
  /-- A token of one of the kinds, or nothing; it leaves no tree. -/
  | ending (kinds : List TokenKind)
  /-- A phrase behind a token of the given kind, or nothing. -/
  | optional (mark : TokenKind) (N : Phrase)
  /-- Phrases one behind the other. -/
  | many (N : Phrase)
  /-- Phrases with commas between them, up to a closing token. -/
  | separated (close : TokenKind) (N : Phrase)
  /-- What follows a phrase in a sequence with separators, up to the closing token. -/
  | tail (separators : List TokenKind) (close : TokenKind) (N : Phrase)
  /-- Phrases with separators between them and perhaps behind them, up to the closing token. -/
  | delimited (separators : List TokenKind) (close : TokenKind) (N : Phrase)
  | name
  | type | typeField
  | block | parameter (typed : Bool) | parameters (typed : Bool)
  | lambdaBody | tupleItem | primary | suffix | suffixed | unary
  | operation (level : Level) (tighter : List Level) | binary (levels : List Level)
  | conditional | expression
  | decorator | assetField | signature | guarded | branches | statement

def TokenKind.literals : List TokenKind :=
  [.int, .float, .string, .kwTrue, .kwFalse, .kwNone, .principal]

/-- The tokens are a phrase with the given trees. -/
inductive Derives : Phrase → List Tree → List Token → Prop
  -- sequences
  | absent : Derives (.ending kinds) [] []
  | present {t : Token} (ht : t.kind ∈ kinds) : Derives (.ending kinds) [] [t]
  | without {mark : TokenKind} : Derives (.optional mark N) [] []
  | marked {mark : TokenKind} {t : Token} (ht : t.kind = mark) (h : Derives N ts w) :
    Derives (.optional mark N) ts (t :: w)
  | nil : Derives (.many N) [] []
  | cons (h : Derives N ts w) (hmore : Derives (.many N) us v) :
    Derives (.many N) (ts ++ us) (w ++ v)
  | last {t : Token} (h : Derives N ts w) (ht : t.kind = close) :
    Derives (.separated close N) ts (w ++ [t])
  | comma {t : Token} (h : Derives N ts w) (ht : t.kind = .comma)
    (hmore : Derives (.separated close N) us v) :
    Derives (.separated close N) (ts ++ us) (w ++ t :: v)
  | close {t : Token} (ht : t.kind = close) : Derives (.tail separators close N) [] [t]
  | closeBehind {s t : Token} (hs : s.kind ∈ separators) (ht : t.kind = close) :
    Derives (.tail separators close N) [] [s, t]
  | item {s : Token} (hs : s.kind ∈ separators) (h : Derives N ts w)
    (hmore : Derives (.tail separators close N) us v) :
    Derives (.tail separators close N) (ts ++ us) (s :: (w ++ v))
  | empty {t : Token} (ht : t.kind = close) : Derives (.delimited separators close N) [] [t]
  | first (h : Derives N ts w) (hmore : Derives (.tail separators close N) us v) :
    Derives (.delimited separators close N) (ts ++ us) (w ++ v)
  | name {t : Token} (ht : t.kind = .ident) : Derives .name [.leaf t] [t]
  -- types
  | namedType {t : Token} (ht : t.kind = .ident) : Derives .type [.node .namedType p [.leaf t]] [t]
  | appliedType {t l : Token} {ts : List Tree} (ht : t.kind = .ident)
    (hrule : Grammar.constructor? t.literal = some (rule, ts.length)) (hl : l.kind = .less)
    (h : Derives (.separated .greater .type) ts w) : Derives .type [.node rule p ts] (t :: l :: w)
  | tupleType {l : Token} (hl : l.kind = .lbrace)
    (h : Derives (.delimited [.comma, .semicolon] .rbrace .typeField) ts w) :
    Derives .type [.node .tupleType p ts] (l :: w)
  | typeField {t c : Token} (ht : t.kind = .ident) (hc : c.kind = .colon)
    (h : Derives .type [type] w) :
    Derives .typeField [.node .tupleTypeItem p [.leaf t, type]] (t :: c :: w)
  -- blocks and parameters
  | block {l r : Token} (hl : l.kind = .lbrace) (h : Derives (.many .statement) ts w)
    (hr : r.kind = .rbrace) : Derives .block [.node .block p ts] (l :: (w ++ [r]))
  | parameter {t : Token} (ht : t.kind = .ident) (h : Derives (.optional .colon .type) ts w)
    (htyped : typed = true → ts ≠ []) :
    Derives (.parameter typed) [.node .parameter p (.leaf t :: ts)] (t :: w)
  | parameters {l : Token} (hl : l.kind = .lparen)
    (h : Derives (.delimited [.comma] .rparen (.parameter typed)) ts w) :
    Derives (.parameters typed) [.node .parameters p ts] (l :: w)
  -- primary expressions
  | blockBody (h : Derives .block ts w) : Derives .lambdaBody ts w
  | expressionBody (h : Derives .expression ts w) : Derives .lambdaBody ts w
  | tupleItem {k c : Token} (hk : k.kind = .ident ∨ k.kind = .string) (hc : c.kind = .colon)
    (h : Derives .expression [e] w) :
    Derives .tupleItem [.node .tupleItem p [.leaf k, e]] (k :: c :: w)
  | ident {t : Token} (ht : t.kind = .ident) : Derives .primary [.leaf t] [t]
  | literal {t : Token} (ht : t.kind ∈ TokenKind.literals) :
    Derives .primary [.node .literal p [.leaf t]] [t]
  | bareLambda {t a : Token} (ht : t.kind = .ident) (ha : a.kind = .arrow)
    (h : Derives .lambdaBody [body] w) :
    Derives .primary [.node .lambda p [.node .parameters q [.node .parameter r [.leaf t]], body]]
      (t :: a :: w)
  | lambda {a : Token} (hparams : Derives (.parameters false) [params] v) (ha : a.kind = .arrow)
    (h : Derives .lambdaBody [body] w) :
    Derives .primary [.node .lambda p [params, body]] (v ++ a :: w)
  | parentheses {l r : Token} (hl : l.kind = .lparen) (h : Derives .expression [e] w)
    (hr : r.kind = .rparen) : Derives .primary [e] (l :: (w ++ [r]))
  | emptyList {l r : Token} (hl : l.kind = .lbracket) (hr : r.kind = .rbracket) :
    Derives .primary [.node .listLit p []] [l, r]
  | list {l : Token} (hl : l.kind = .lbracket) (h : Derives .expression [e] w)
    (hmore : Derives (.tail [.comma] .rbracket .expression) es v) :
    Derives .primary [.node .listLit p (e :: es)] (l :: (w ++ v))
  | comprehension {l f x i r : Token} (hl : l.kind = .lbracket) (h : Derives .expression [e] w)
    (hf : f.kind = .kwFor) (hx : x.kind = .ident) (hi : i.kind = .kwIn)
    (hiterable : Derives .expression [iterable] v)
    (hcondition : Derives (.optional .kwIf .expression) condition u) (hr : r.kind = .rbracket) :
    Derives .primary [.node .comprehension p ([e, .leaf x, iterable] ++ condition)]
      (l :: (w ++ f :: x :: i :: (v ++ (u ++ [r]))))
  | tuple {l : Token} (hl : l.kind = .lbrace)
    (h : Derives (.delimited [.comma] .rbrace .tupleItem) ts w) :
    Derives .primary [.node .tupleLit p ts] (l :: w)
  | creation {n t l : Token} (hn : n.kind = .kwNew) (ht : t.kind = .ident)
    (htypes : Derives (.optional .less (.separated .greater .type)) types w) (hl : l.kind = .lparen)
    (h : Derives (.delimited [.comma] .rparen .expression) args v) :
    Derives .primary [.node .newExpr p (.leaf t :: types ++ [.node .arguments q args])]
      (n :: t :: (w ++ l :: v))
  -- operators
  | call {l : Token} (hl : l.kind = .lparen)
    (h : Derives (.delimited [.comma] .rparen .expression) args w) :
    Derives .suffix [.node .call p args] (l :: w)
  | member {d t : Token} (hd : d.kind = .dot) (ht : t.kind = .ident) :
    Derives .suffix [.node .member p [.leaf t]] [d, t]
  | typeCheck {k : Token} (hk : k.kind = .kwIs) (h : Derives .type [type] w) :
    Derives .suffix [.node .isSuffix p [type]] (k :: w)
  | cast {k : Token} (hk : k.kind = .kwAs) (h : Derives .type [type] w) :
    Derives .suffix [.node .asSuffix p [type]] (k :: w)
  | bare (h : Derives .primary ts w) : Derives .suffixed ts w
  | suffixed (h : Derives .primary [e] w) (hmore : Derives (.many .suffix) (s :: ss) v) :
    Derives .suffixed [.node .suffixed p (e :: s :: ss)] (w ++ v)
  | sign {t : Token} (ht : t.kind = .bang ∨ t.kind = .minus) (h : Derives .unary [e] w) :
    Derives .unary [.node .unary p [.leaf t, e]] (t :: w)
  | unsigned (h : Derives .suffixed ts w) : Derives .unary ts w
  | operation {level : Level} {t : Token} (ht : t.kind ∈ level.operators)
    (h : Derives (.binary tighter) [e] w) : Derives (.operation level tighter) [.leaf t, e] (t :: w)
  | operand (h : Derives .unary ts w) : Derives (.binary []) ts w
  | tighter (h : Derives (.binary levels) ts w) : Derives (.binary (level :: levels)) ts w
  | operations (h : Derives (.binary levels) [e] w)
    (hmore : Derives (.many (.operation level levels)) ts v) (hts : ts ≠ []) :
    Derives (.binary (level :: levels)) [.node (.binary level) p (e :: ts)] (w ++ v)
  | noChoice (h : Derives (.binary Level.all) ts w) : Derives .conditional ts w
  | conditional {q c : Token} (h : Derives (.binary Level.all) [condition] w)
    (hq : q.kind = .question) (hyes : Derives .expression [yes] v) (hc : c.kind = .colon)
    (hno : Derives .conditional [no] u) :
    Derives .conditional [.node .conditional p [condition, yes, no]] (w ++ q :: (v ++ c :: u))
  | noAssignment (h : Derives .conditional ts w) : Derives .expression ts w
  | assignment {a : Token} (h : Derives .conditional [left] w) (ha : a.kind = .assign)
    (hright : Derives .expression [right] v) :
    Derives .expression [.node .assignment p [left, right]] (w ++ a :: v)
  -- declarations
  | decorator {t : Token} (ht : t.kind = .decorator) :
    Derives .decorator [.node .decorator p [.leaf t]] [t]
  | decoratorExpression {t l r : Token} (ht : t.kind = .decorator) (hl : l.kind = .lparen)
    (h : Derives .expression [e] w) (hr : r.kind = .rparen) :
    Derives .decorator [.node .decorator p [.leaf t, e]] (t :: l :: (w ++ [r]))
  | decoratorType {t l r : Token} (ht : t.kind = .decorator) (hl : l.kind = .lparen)
    (h : Derives .type [type] w) (hr : r.kind = .rparen) :
    Derives .decorator [.node .decorator p [.leaf t, type]] (t :: l :: (w ++ [r]))
  | functionDecl {k t : Token} (hds : Derives (.many .decorator) ds d) (hk : k.kind = .kwFunction)
    (ht : t.kind = .ident) (hparams : Derives (.parameters true) [params] w)
    (hresult : Derives (.optional .colon .type) result v) (hbody : Derives .block [body] u) :
    Derives .statement [.node .functionDecl p (ds ++ .leaf t :: params :: result ++ [body])]
      (d ++ k :: t :: (w ++ (v ++ u)))
  | variableDecl {k t : Token} (hk : k.kind = .kwLet) (ht : t.kind = .ident)
    (htype : Derives (.optional .colon .type) type w)
    (hvalue : Derives (.optional .assign .expression) value v)
    (hend : Derives (.ending [.semicolon]) [] e) :
    Derives .statement [.node .variableDecl p (.leaf t :: type ++ value)]
      (k :: t :: (w ++ (v ++ e)))
  | constantDecl {k t : Token} (hds : Derives (.many .decorator) ds d) (hk : k.kind = .kwConst)
    (ht : t.kind = .ident) (htype : Derives (.optional .colon .type) type w)
    (hvalue : Derives (.optional .assign .expression) value v)
    (hend : Derives (.ending [.semicolon]) [] e) :
    Derives .statement [.node .constantDecl p (ds ++ .leaf t :: type ++ value)]
      (d ++ k :: t :: (w ++ (v ++ e)))
  | assetField {t : Token} (ht : t.kind = .ident) (htype : Derives (.optional .colon .type) type w)
    (hend : Derives (.ending [.semicolon, .comma]) [] e) :
    Derives .assetField [.node .assetField p (.leaf t :: type)] (t :: (w ++ e))
  | assetDecl {k t l r : Token} (hds : Derives (.many .decorator) ds d) (hk : k.kind = .kwClass)
    (ht : t.kind = .ident) (hl : l.kind = .lbrace) (h : Derives (.many .assetField) fields w)
    (hr : r.kind = .rbrace) :
    Derives .statement [.node .assetDecl p (ds ++ .leaf t :: fields)]
      (d ++ k :: t :: l :: (w ++ [r]))
  | signature {t c : Token} (ht : t.kind = .ident) (hparams : Derives (.parameters true) [params] w)
    (hc : c.kind = .colon) (hresult : Derives .type [result] v)
    (hend : Derives (.ending [.semicolon]) [] e) :
    Derives .signature [.node .signature p [.leaf t, params, result]] (t :: (w ++ c :: (v ++ e)))
  | traitDecl {k t l r : Token} (hk : k.kind = .kwTrait) (ht : t.kind = .ident)
    (hl : l.kind = .lbrace) (h : Derives (.many .signature) ts w) (hr : r.kind = .rbrace) :
    Derives .statement [.node .traitDecl p (.leaf t :: ts)] (k :: t :: l :: (w ++ [r]))
  | mapDecl {m l t : Token} (hm : m.kind = .ident) (hl : l.kind = .less)
    (h : Derives (.separated .greater .type) [key, value] w) (ht : t.kind = .ident)
    (hend : Derives (.ending [.semicolon]) [] e) :
    Derives .statement [.node .mapDecl p [key, value, .leaf t]] (m :: l :: (w ++ t :: e))
  | namedMapDecl {m t c k l : Token} (hm : m.kind = .ident) (ht : t.kind = .ident)
    (hc : c.kind = .colon) (hk : k.kind = .ident) (hl : l.kind = .less)
    (h : Derives (.separated .greater .type) [key, value] w)
    (hend : Derives (.ending [.semicolon]) [] e) :
    Derives .statement [.node .mapDecl p [key, value, .leaf t]] (m :: t :: c :: k :: l :: (w ++ e))
  | importDecl {k l f s : Token} (hk : k.kind = .kwImport) (hl : l.kind = .lbrace)
    (h : Derives (.separated .rbrace .name) names w) (hf : f.kind = .ident) (hs : s.kind = .string)
    (hend : Derives (.ending [.semicolon]) [] e) :
    Derives .statement [.node .importDecl p (names ++ [.leaf s])] (k :: l :: (w ++ f :: s :: e))
  -- statements
  | guarded {l r : Token} (hl : l.kind = .lparen) (h : Derives .expression [condition] w)
    (hr : r.kind = .rparen) (hbody : Derives .block [body] v) :
    Derives .guarded [condition, body] (l :: (w ++ r :: v))
  | noBranch : Derives .branches [] []
  | elseIf {k i : Token} (hk : k.kind = .kwElse) (hi : i.kind = .kwIf) (h : Derives .guarded ts w)
    (hmore : Derives .branches us v) : Derives .branches (ts ++ us) (k :: i :: (w ++ v))
  | otherwise {k : Token} (hk : k.kind = .kwElse) (h : Derives .block [body] w) :
    Derives .branches [body] (k :: w)
  | ifStmt {k : Token} (hk : k.kind = .kwIf) (h : Derives .guarded ts w)
    (hmore : Derives .branches us v) :
    Derives .statement [.node .ifStmt p (ts ++ us)] (k :: (w ++ v))
  | tryStmt {k c l t r : Token} (hk : k.kind = .kwTry) (h : Derives .block [body] w)
    (hc : c.kind = .kwCatch) (hl : l.kind = .lparen) (ht : t.kind = .ident) (hr : r.kind = .rparen)
    (hhandler : Derives .block [handler] v) :
    Derives .statement [.node .tryStmt p [body, .leaf t, handler]]
      (k :: (w ++ c :: l :: t :: r :: v))
  | throwStmt {k : Token} (hk : k.kind = .kwThrow) (h : Derives .expression [e] w)
    (hend : Derives (.ending [.semicolon]) [] v) :
    Derives .statement [.node .throwStmt p [e]] (k :: (w ++ v))
  | returnNothing {k : Token} (hk : k.kind = .kwReturn)
      (hend : Derives (.ending [.semicolon]) [] v) :
    Derives .statement [.node .returnStmt p []] (k :: v)
  | returnStmt {k : Token} (hk : k.kind = .kwReturn) (h : Derives .expression [e] w)
    (hend : Derives (.ending [.semicolon]) [] v) :
    Derives .statement [.node .returnStmt p [e]] (k :: (w ++ v))
  | exportDecl {k : Token} (hk : k.kind = .kwExport) (h : Derives .statement [s] w) :
    Derives .statement [.node .exportDecl p [s]] (k :: w)
  | exprStmt (h : Derives .expression [e] w) (hend : Derives (.ending [.semicolon]) [] v) :
    Derives .statement [.node .exprStmt p [e]] (w ++ v)

/-! ### Tokens between cursors -/

/-- The tokens that are passed on the way from one cursor to another. -/
inductive Cursor.Eats : Cursor → List Token → Cursor → Prop
  | refl (c : Cursor) : Eats c [] c
  | advance {c : Cursor} (h : Eats c.advance w d) : Eats c (c.peek :: w) d
  | split {c : Cursor} (hk : c.peek.kind = .shiftRight) (h : Eats c.splitShift w d) : Eats c w d

namespace Cursor.Eats

variable {c d e : Cursor} {w v : List Token}

theorem trans (h : Eats c w d) (h' : Eats d v e) : Eats c (w ++ v) e := by
  induction h with
  | refl _ => exact h'
  | advance _ ih => exact .advance (ih h')
  | split hk _ ih => exact .split hk (ih h')

theorem one (c : Cursor) : Eats c [c.peek] c.advance :=
  .advance (.refl _)

end Cursor.Eats

/-! ### Faults -/

/-- The first fault seen, before and after some reading.  A fault stays, and a new one is a fault
of reading. -/
def Fault.Stays : Option Fault → Option Fault → Prop
  | some f, new => new = some f
  | none, new => ∀ g ∈ new, g.cause.stage = .reading

namespace Fault.Stays

theorem refl (fault : Option Fault) : Stays fault fault := by
  cases fault with
  | none => exact nofun
  | some f => rfl

theorem trans (hfg : Stays f g) (hgh : Stays g h) : Stays f h := by
  cases f with
  | some f =>
    cases hfg
    exact hgh
  | none =>
    cases g with
    | none => exact hgh
    | some g =>
      cases hgh
      exact hfg

theorem some_getD (hg : g.cause.stage = .reading) : Stays fault (some (fault.getD g)) := by
  cases fault with
  | none =>
    rintro _ ⟨⟩
    exact hg
  | some f => rfl

end Fault.Stays

theorem Token.stage_illegalFault (t : Token) : t.illegalFault.cause.stage = .reading := by
  unfold illegalFault
  split
  · rfl
  · split <;> rfl

theorem Cursor.stays_note {c : Cursor} {fault : Option Fault} (h : c.fault = fault) (t : Token) :
    Fault.Stays fault (c.note t).fault := by
  rw [note]
  split
  · rw [h]
    exact .some_getD t.stage_illegalFault
  · rw [h]
    exact .refl _

theorem Cursor.stays_advance (c : Cursor) : Fault.Stays c.fault c.advance.fault :=
  stays_note (by rfl) _

theorem Cursor.stays_splitShift (c : Cursor) : Fault.Stays c.fault c.splitShift.fault :=
  stays_note (by rfl) _

/-! ### What parsers ensure -/

/-- After a run of the parser from the cursor the property holds, if the parser has a result.  A
fault that was seen before stays, and is the one that a failing parser reports. -/
def Parser.Ensures {α : Type} (p : Parser α) (c : Cursor) (Q : α → Cursor → Prop) : Prop :=
  match p c with
  | .ok (a, d) => Q a d ∧ Fault.Stays c.fault d.fault
  | .error g => Fault.Stays c.fault (some g)

namespace Parser.Ensures

variable {α β : Type} {c : Cursor} {P Q : α → Cursor → Prop} {R : β → Cursor → Prop}
    {p q : Parser α} {k : TokenKind}

theorem pure (h : Q a c) : Ensures (Pure.pure a) c Q :=
  ⟨h, .refl _⟩

theorem bind {k : α → Parser β} (h : Ensures p c fun a d => Ensures (k a) d R) :
    Ensures (p >>= k) c R := by
  unfold Ensures at h ⊢
  change match p c >>= fun x => k x.1 x.2 with
    | .ok (b, d) => R b d ∧ Fault.Stays c.fault d.fault
    | .error g => Fault.Stays c.fault (some g)
  cases hp : p c with
  | error g =>
    rw [hp] at h
    exact h
  | ok x =>
    obtain ⟨a, d⟩ := x
    rw [hp] at h
    obtain ⟨hk, hfault⟩ := h
    change match k a d with
      | .ok (b, e) => R b e ∧ Fault.Stays c.fault e.fault
      | .error g => Fault.Stays c.fault (some g)
    cases hka : k a d with
    | error g =>
      rw [hka] at hk
      exact hfault.trans hk
    | ok y =>
      rw [hka] at hk
      exact ⟨hk.1, hfault.trans hk.2⟩

theorem mono (h : Ensures p c P) (hPQ : ∀ a d, P a d → Q a d) : Ensures p c Q := by
  unfold Ensures at h ⊢
  split
  · next heq =>
    rw [heq] at h
    exact ⟨hPQ _ _ h.1, h.2⟩
  · next heq =>
    rw [heq] at h
    exact h

theorem andThen {k : α → Parser β} (h : Ensures p c P)
    (hk : ∀ a d, P a d → Ensures (k a) d R) : Ensures (p >>= k) c R :=
  .bind (h.mono hk)

theorem fail (hf : f.cause.stage = .reading) : Ensures (Parser.fail f) c Q :=
  Fault.Stays.some_getD hf

theorem failAgain (hf : c.fault = some f) : Ensures (Parser.fail f) c Q := by
  change Fault.Stays c.fault (some (c.fault.getD f))
  rw [hf]
  rfl

theorem failExpecting (k : TokenKind) : Ensures (failExpecting k) c Q :=
  Fault.Stays.some_getD rfl

theorem failUnexpected : Ensures failUnexpected c Q :=
  Fault.Stays.some_getD rfl

theorem cur {k : Token → Parser β} (h : Ensures (k c.cur) c R) : Ensures (cur >>= k) c R :=
  h

theorem peek {k : Token → Parser β} (h : Ensures (k c.peek) c R) : Ensures (peek >>= k) c R :=
  h

theorem get {k : Cursor → Parser β} (h : Ensures (k c) c R) : Ensures (MonadState.get >>= k) c R :=
  h

theorem advance {k : Unit → Parser β} (h : Ensures (k ()) c.advance R) :
    Ensures (Parser.advance >>= k) c R :=
  .bind ⟨h, c.stays_advance⟩

theorem ite [Decidable h] (hp : h → Ensures p c Q)
    (hq : ¬h → Ensures q c Q) : Ensures (if h then p else q) c Q := by
  by_cases hh : h
  · rw [if_pos hh]
    exact hp hh
  · rw [if_neg hh]
    exact hq hh

theorem ifPeek (hp : c.peek.kind = k → Ensures p c Q) (hq : c.peek.kind ≠ k → Ensures q c Q) :
    Ensures (peekIs k >>= fun b => if b = true then p else q) c Q := by
  exact .ite (fun h => hp (of_decide_eq_true h)) fun h => hq fun heq => h (decide_eq_true heq)

theorem token (k : TokenKind) : Ensures (Parser.expect k) c fun t d =>
    t.kind = k ∧ t = c.peek ∧ d = c.advance := by
  refine .ifPeek (fun hk => .advance ⟨?_, .refl _⟩) fun _ => .failExpecting k
  rw [Cursor.cur_advance]
  exact ⟨hk, rfl, rfl⟩

theorem expect (h : c.peek.kind = k → Ensures (f c.peek) c.advance R) :
    Ensures (Parser.expect k >>= f) c R := by
  refine .andThen (.token k) fun t d ht => ?_
  obtain ⟨hk, rfl, rfl⟩ := ht
  exact h hk

theorem pass (h : c.peek.kind = k → Ensures (f ()) c.advance R) :
    Ensures (discard (Parser.expect k) >>= f) c R :=
  .bind (expect (f := fun _ => Pure.pure ()) fun hk => .pure (h hk))

end Parser.Ensures

/-! ### Phrases between cursors -/

def Phrase.Follows (N : Phrase) (c : Cursor) (ts : List Tree) (d : Cursor) : Prop :=
  ∃ w, Cursor.Eats c w d ∧ Derives N ts w

/-- From the token under the first cursor to the second one stands a phrase with the given trees. -/
def Phrase.Covers (N : Phrase) (c : Cursor) (ts : List Tree) (d : Cursor) : Prop :=
  ∃ w, Cursor.Eats c w d ∧ Derives N ts (c.cur :: w)

theorem Phrase.Covers.follows {N : Phrase} (h : N.Covers c.advance ts d) : N.Follows c ts d := by
  obtain ⟨w, hw, hN⟩ := h
  rw [Cursor.cur_advance] at hN
  exact ⟨_, .advance hw, hN⟩

namespace Parser.Ensures

variable {α β : Type} {N : Phrase} {f : α → List Tree} {R : β → Cursor → Prop}
    {item? : Parser (Option α)} {stop : Cursor → Prop} {k : TokenKind}

theorem next {k : α → Parser β} (h : ∀ c, Ensures p c fun a d => N.Covers c (f a) d)
    (hk : ∀ a d w, Cursor.Eats c w d → Derives N (f a) w → Ensures (k a) d R) :
    Ensures (Parser.advance >>= fun _ => p >>= k) c R := by
  refine .advance (.andThen (h _) fun a d hcovers => ?_)
  obtain ⟨w, hw, hN⟩ := hcovers.follows
  exact hk a d w hw hN

section

variable (hitem : ∀ c, Ensures item? c fun x d =>
  (x = none → d = c ∧ stop c) ∧ ∀ a, x = some a → N.Follows c (f a) d)

include hitem

theorem manyWithin (fuel : Nat) : ∀ c, Ensures (Parser.manyWithin item? fuel) c fun as d =>
      (Phrase.many N).Follows c (as.flatMap f) d ∧ stop d ∧ (as = [] → d = c) := by
  induction fuel with
  | zero => exact fun c => .failUnexpected
  | succ fuel ih =>
    intro c
    refine .andThen (hitem c) fun x d hx => ?_
    cases x with
    | none =>
      obtain ⟨rfl, hstop⟩ := hx.1 rfl
      exact .pure ⟨⟨[], .refl _, .nil⟩, hstop, fun _ => rfl⟩
    | some a =>
      obtain ⟨w, hw, ha⟩ := hx.2 a rfl
      refine .andThen (ih d) fun as e has => ?_
      obtain ⟨⟨v, hv, has⟩, hstop, -⟩ := has
      exact .pure ⟨⟨w ++ v, hw.trans hv, .cons ha has⟩, hstop, nofun⟩

theorem many (c : Cursor) : Ensures (Parser.many item?) c fun as d =>
      (Phrase.many N).Follows c (as.flatMap f) d ∧ stop d ∧ (as = [] → d = c) :=
  .get (manyWithin hitem c.bound c)

end

theorem manyFromWithin {item? : Parser (Option Tree)}
    (hitem : ∀ c, Ensures item? c fun x d => (x = none → d = c ∧ stop c) ∧
      ∀ t, x = some t → ∃ w, Cursor.Eats c (w ++ [d.cur]) d ∧ Derives N [t] (c.cur :: w))
    (fuel : Nat) : ∀ c, Ensures (Parser.manyWithin item? fuel) c fun ts d =>
      stop d ∧ ∃ w v, Cursor.Eats c w d ∧ c.cur :: w = v ++ [d.cur] ∧ Derives (.many N) ts v := by
  induction fuel with
  | zero => exact fun c => .failUnexpected
  | succ fuel ih =>
    intro c
    refine .andThen (hitem c) fun x d hx => ?_
    cases x with
    | none =>
      obtain ⟨rfl, hstop⟩ := hx.1 rfl
      exact .pure ⟨hstop, [], [], .refl _, rfl, .nil⟩
    | some t =>
      obtain ⟨w, hw, ht⟩ := hx.2 t rfl
      refine .andThen (ih d) fun ts e hts => ?_
      obtain ⟨hstop, w', v, hw', heq, hts⟩ := hts
      refine .pure ⟨hstop, _, (c.cur :: w) ++ v, hw.trans hw', ?_, .cons ht hts⟩
      rw [append_assoc, singleton_append, heq, append_assoc, cons_append]

theorem manyFrom {item? : Parser (Option Tree)}
    (hitem : ∀ c, Ensures item? c fun x d => (x = none → d = c ∧ stop c) ∧
      ∀ t, x = some t → ∃ w, Cursor.Eats c (w ++ [d.cur]) d ∧ Derives N [t] (c.cur :: w))
    (c : Cursor) : Ensures (Parser.many item?) c fun ts d =>
      stop d ∧ ∃ w v, Cursor.Eats c w d ∧ c.cur :: w = v ++ [d.cur] ∧ Derives (.many N) ts v :=
  .get (manyFromWithin hitem c.bound c)

theorem closes (k : TokenKind) (c : Cursor) : Ensures (discard (Parser.expect k)) c fun _ d =>
    ∃ t, t.kind = k ∧ Cursor.Eats c [t] d :=
  expect (f := fun _ => Pure.pure ()) fun hk => .pure ⟨_, hk, .one c⟩

theorem separatedWithin (hitem : ∀ c, Ensures item c fun a d => N.Follows c (f a) d)
    (hclose : ∀ c, Ensures close c fun _ d => ∃ t, t.kind = k ∧ Cursor.Eats c [t] d) (fuel : Nat) :
    ∀ c, Ensures (separatedWithin item close fuel) c fun as d =>
      (Phrase.separated k N).Follows c (as.flatMap f) d := by
  induction fuel with
  | zero => exact fun c => .failUnexpected
  | succ fuel ih =>
    intro c
    refine .andThen (hitem c) fun a d ha => ?_
    obtain ⟨w, hw, ha⟩ := ha
    refine .ifPeek (fun hcomma => .advance (.andThen (ih _) fun as e has => ?_))
      fun _ => .andThen (hclose d) fun _ e he => ?_
    · obtain ⟨v, hv, has⟩ := has
      exact .pure ⟨_, hw.trans (.advance hv), .comma ha hcomma has⟩
    · obtain ⟨t, ht, hend⟩ := he
      refine .pure ⟨_, hw.trans hend, ?_⟩
      rw [flatMap_singleton]
      exact .last ha ht

theorem separated (hitem : ∀ c, Ensures item c fun a d => N.Follows c (f a) d)
    (hclose : ∀ c, Ensures close c fun _ d => ∃ t, t.kind = k ∧ Cursor.Eats c [t] d) (c : Cursor) :
    Ensures (separated item close) c fun as d =>
      (Phrase.separated k N).Follows c (as.flatMap f) d :=
  .get (separatedWithin hitem hclose c.bound c)

variable {separators : List TokenKind} {close : TokenKind} {item : Parser Tree}

section

variable (hitem : ∀ c, Ensures item c fun t d => N.Follows c [t] d)

include hitem

theorem tailWithin (fuel : Nat) : ∀ c, Ensures (tailWithin separators close item fuel) c fun ts d =>
      (Phrase.tail separators close N).Follows c ts d := by
  induction fuel with
  | zero => exact fun c => .failUnexpected
  | succ fuel ih =>
    intro c
    refine .peek (.ite (fun hs => .advance (.ifPeek (fun hk => .advance ?_) fun _ => ?_))
      fun _ => .pass fun hk => ?_)
    · exact .pure ⟨_, .advance (.one _), .closeBehind (contains_iff_mem.1 hs) hk⟩
    · refine .andThen (hitem _) fun t d ht => ?_
      obtain ⟨w, hw, ht⟩ := ht
      refine .andThen (ih d) fun ts e hts => ?_
      obtain ⟨v, hv, hts⟩ := hts
      exact .pure ⟨_, .advance (hw.trans hv), .item (contains_iff_mem.1 hs) ht hts⟩
    · exact .pure ⟨_, .one _, .close hk⟩

theorem tail (c : Cursor) : Ensures (tail separators close item) c fun ts d =>
      (Phrase.tail separators close N).Follows c ts d :=
  .get (tailWithin hitem c.bound c)

theorem delimited (c : Cursor) : Ensures (delimited separators close item) c fun ts d =>
      (Phrase.delimited separators close N).Follows c ts d := by
  refine .ifPeek (fun hk => .advance (.pure ⟨_, .one _, .empty hk⟩)) fun _ => ?_
  refine .andThen (hitem c) fun t d ht => ?_
  obtain ⟨w, hw, ht⟩ := ht
  refine .andThen (tail hitem d) fun ts e hts => ?_
  obtain ⟨v, hv, hts⟩ := hts
  exact .pure ⟨_, hw.trans hv, .first ht hts⟩

end

theorem optionalSemicolon {k : Unit → Parser β}
    (hk : ∀ d w, Cursor.Eats c w d → Derives (.ending [.semicolon]) [] w → Ensures (k ()) d R) :
    Ensures (optionalSemicolon >>= k) c R :=
  .bind (.ifPeek
    (fun h => advance (k := Pure.pure) (.pure (hk _ _ (.one _) (.present (by simp [h])))))
    fun _ => .pure (hk _ _ (.refl _) .absent))

end Parser.Ensures

end Covenant
