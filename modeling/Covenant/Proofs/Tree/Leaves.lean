import Covenant.Proofs.Tree.Derivation.Source

/-!
# No token is lost

The leaves of a parse tree are tokens of its source, in the order of the source.  Names, keywords
and punctuation may leave no leaf, but literals, decorators and operators all do.
-/

namespace Covenant

open List

/-! ### Leaves -/

namespace Tree

mutual

def leaves : Tree → List Token
  | leaf t => [t]
  | node _ _ kids => leavesAll kids

def leavesAll : List Tree → List Token
  | [] => []
  | t :: ts => t.leaves ++ leavesAll ts

end

attribute [simp] leaves leavesAll

@[simp]
theorem leavesAll_append (ts us : List Tree) :
    leavesAll (ts ++ us) = leavesAll ts ++ leavesAll us := by
  induction ts with
  | nil => rfl
  | cons t ts ih => rw [cons_append, leavesAll, leavesAll, ih, append_assoc]

/-- The tokens are the leaves of the trees, from left to right, except that the name of a map may
come before its two types. -/
inductive Spells : List Tree → List Token → Prop
  | nil : Spells [] []
  | leaf (t : Token) (h : Spells ts w) : Spells (.leaf t :: ts) (t :: w)
  | node (hkids : Spells kids w) (h : Spells ts v) : Spells (.node rule p kids :: ts) (w ++ v)
  | mapName (htypes : Spells [key, value] w) (h : Spells ts v) :
    Spells (.node .mapDecl p [key, value, .leaf t] :: ts) (t :: (w ++ v))

theorem Spells.append (h : Spells ts w) (h' : Spells us v) : Spells (ts ++ us) (w ++ v) := by
  induction h with
  | nil => exact h'
  | leaf t _ ih => exact .leaf t ih
  | node hkids _ _ ih =>
    rw [append_assoc]
    exact .node hkids ih
  | mapName htypes _ _ ih =>
    simp only [cons_append, append_assoc]
    exact .mapName htypes ih

def Among (ts : List Tree) (w : List Token) : Prop :=
  ∃ u, Spells ts u ∧ u.Sublist w

namespace Among

variable {t : Token} {ts us : List Tree} {w v : List Token}

theorem nil : Among [] w :=
  ⟨[], .nil, nil_sublist w⟩

theorem skip (h : Among ts w) : Among ts (t :: w) := by
  obtain ⟨u, hu, hsub⟩ := h
  exact ⟨u, hu, hsub.cons t⟩

theorem leaf (h : Among ts w) : Among (.leaf t :: ts) (t :: w) := by
  obtain ⟨u, hu, hsub⟩ := h
  exact ⟨t :: u, .leaf t hu, hsub.cons_cons t⟩

theorem append (h : Among ts w) (h' : Among us v) : Among (ts ++ us) (w ++ v) := by
  obtain ⟨u, hu, hsub⟩ := h
  obtain ⟨u', hu', hsub'⟩ := h'
  exact ⟨u ++ u', hu.append hu', hsub.append hsub'⟩

theorem cons {x : Tree} (h : Among [x] w) (h' : Among us v) : Among (x :: us) (w ++ v) :=
  h.append h'

theorem skipAfter (h : Among ts w) : Among ts (w ++ v) := by
  obtain ⟨u, hu, hsub⟩ := h
  exact ⟨u, hu, hsub.trans (sublist_append_left w v)⟩

theorem node {rule : Rule} {p : Pos} (h : Among ts w) : Among [.node rule p ts] w := by
  obtain ⟨u, hu, hsub⟩ := h
  refine ⟨u, ?_, hsub⟩
  rw [← append_nil u]
  exact .node hu .nil

end Among

end Tree

open Tree (Among)

variable {ts : List Tree} {w : List Token}

attribute [local grind ←] Among.nil Among.skip Among.leaf Among.append Among.cons Among.skipAfter
  Among.node in
theorem Derives.among (h : Derives N ts w) : Among ts w := by
  induction h
  case bareLambda ih => exact .node (.cons (w := [_]) (.node (.node (.leaf .nil))) (.skip ih))
  case comprehension he hiterable hcondition =>
    exact .node (.skip (.cons he (.skip (.leaf (.skip (.cons hiterable hcondition.skipAfter))))))
  case functionDecl hds hparams hresult hbody =>
    rw [append_assoc]
    exact .node (hds.append (.skip (.leaf (.cons hparams (hresult.append hbody)))))
  case assetDecl hds hfields => exact .node (hds.append (.skip (.leaf (.skip hfields.skipAfter))))
  case tryStmt hbody hhandler =>
    exact .node (.skip (.cons hbody (.skip (.skip (.leaf (.skip hhandler))))))
  case mapDecl htypes _ =>
    exact .node (.skip (.skip (htypes.append (Among.leaf .nil : Among [_] _))))
  case namedMapDecl htypes _ =>
    -- here the name goes first
    obtain ⟨u, hu, hsub⟩ := htypes
    refine ⟨_ :: (u ++ []), .mapName hu .nil, ?_⟩
    rw [append_nil]
    exact (((hsub.trans (sublist_append_left _ _)).cons _).cons _).cons _ |>.cons_cons _ |>.cons _
  all_goals grind

/-! ### Tokens that are kept -/

/-- Literals, decorators and operators, except for those that are punctuation elsewhere. -/
def TokenKind.isKept : TokenKind → Bool
  | int | float | string | principal | kwTrue | kwFalse | kwNone | decorator => true
  | plus | minus | bang | asterisk | slash | percent | lessEq | greaterEq | equal | notEqual | and
  | or | bitAnd | bitOr | bitXor | shiftLeft => true
  | assign | less | greater | shiftRight | question | arrow => false
  | illegal | eof | unknown | ident | comma | semicolon | colon | dot | lparen | rparen | lbrace
  | rbrace | lbracket | rbracket | kwFunction | kwLet | kwConst | kwClass | kwTrait | kwIf | kwElse
  | kwTry | kwCatch | kwThrow | kwReturn | kwImport | kwExport | kwNew | kwFor | kwIn | kwIs
  | kwAs => false

namespace Token

def kept (w : List Token) : List Token :=
  w.filter (·.kind.isKept)

variable {t : Token} {v w : List Token}

@[grind =]
theorem kept_nil : kept [] = [] :=
  rfl

@[grind =]
theorem kept_append : kept (v ++ w) = kept v ++ kept w :=
  filter_append _ _

@[grind =]
theorem kept_cons : kept (t :: w) = if t.kind.isKept then t :: kept w else kept w :=
  filter_cons

theorem Split.kept_eq (h : Split w v) : kept v = kept w := by
  induction h with
  | nil => rfl
  | keep t _ ih => rw [kept_cons, kept_cons, ih]
  | cut ht _ ih =>
    rw [kept_cons, kept_cons, kept_cons, ht, ih]
    rfl

end Token

theorem Derives.kept_leavesAll (h : Derives N ts w)
    (hN : ∀ k ∈ N.marks, k.isKept = false) : Token.kept (Tree.leavesAll ts) = Token.kept w := by
  induction h
  all_goals try simp only [Tree.leavesAll, Tree.leaves, Tree.leavesAll_append, Token.kept_append,
      Token.kept_cons, Token.kept_nil, append_nil, cons_append, nil_append] at *
  all_goals grind [Phrase.marks, TokenKind.isKept]

/-! ### Faults of a parse -/

/-- A run of the parser never drops or replaces a fault, and what it fails with is the first fault
that there was. -/
def Parser.KeepsFault {α : Type} (p : Parser α) : Prop :=
  ∀ c, match p c with
    | .ok (_, d) => Fault.Stays c.fault d.fault
    | .error f => Fault.Stays c.fault (some f)

theorem Parser.KeepsFault.of_ensures {α : Type} {p : Parser α} {Q : Cursor → α → Cursor → Prop}
    (h : ∀ c, p.Ensures c (Q c)) : p.KeepsFault := by
  intro c
  have hc := h c
  rw [Ensures] at hc
  cases hp : p c with
  | ok x =>
    rw [hp] at hc
    exact hc.2
  | error f =>
    rw [hp] at hc
    exact hc

def Grammar.rules (g : Grammar) : List (Parser Tree) :=
  [g.type, g.expression, g.conditional, g.unary, g.statement]

theorem Grammar.Sound.keepsFault {g : Grammar} (hg : g.Sound) : ∀ p ∈ g.rules, p.KeepsFault := by
  intro p hp
  simp only [rules, mem_cons, not_mem_nil, or_false] at hp
  obtain rfl | rfl | rfl | rfl | rfl := hp
  · exact .of_ensures hg.type
  · exact .of_ensures hg.expression
  · exact .of_ensures hg.conditional
  · exact .of_ensures hg.unary
  · exact .of_ensures hg.statement

theorem Grammar.Sound.stays_statements {g : Grammar} (hg : g.Sound) (fuel : Nat) (c : Cursor) :
    Fault.Stays c.fault (g.statements fuel c).2 := by
  induction fuel generalizing c with
  | zero => exact .refl _
  | succ fuel ih =>
    have hstmt : g.statement.KeepsFault := .of_ensures hg.statement
    have hc := hstmt c
    rw [statements]
    split
    · exact .refl _
    · cases h : g.statement c with
      | error f =>
        rw [h] at hc
        exact hc
      | ok x =>
        rw [h] at hc
        exact (hc.trans x.2.stays_advance).trans (ih _)

theorem Tree.stage_of_parse {source : Bytes} (h : parse source = .error f) :
    f.cause.stage = .reading := by
  have hsound : (Grammar.ofSource source).Sound := Grammar.sound_ofDepth _
  have hstays := (Cursor.stays_ofTokens (Token.scan source)).trans
      (hsound.stays_statements (Cursor.ofSource source).bound (.ofSource source))
  rw [parse] at h
  split at h
  · next hfault =>
    cases h
    exact hstays f hfault
  · cases h

/-- **No failure is silent and no token is lost.**  Parsing fails with the first fault there was.
Otherwise it ends on the end of input, behind legal tokens only.  The leaves of the tree are tokens
of the source at increasing places, and each token of a kind that is kept is exactly one of them. -/
theorem Tree.parse_loses_nothing (source : Bytes) :
    (∀ depth, ∀ p ∈ (Grammar.ofDepth depth).rules, p.KeepsFault) ∧
    match Tree.parse source with
    | .error f => f.cause.stage = .reading ∧ (Parsed.ofSource source).fault = some f
    | .ok t =>
      (∃ p stmts d, t = .node .program p stmts ∧
        (Grammar.ofSource source).Parses (.ofSource source) stmts d ∧ d.cur.kind = .eof ∧
        d.fault = none) ∧
      ∃ ts e v w, Token.scan source = ts ++ [e] ∧ e.kind = .eof ∧
        (∀ u ∈ ts, u.kind ≠ .eof ∧ u.kind ≠ .illegal) ∧
        Token.Split ts v ∧ Tree.Spells [t] w ∧ w.Sublist v ∧ w.Pairwise (·.pos.Before ·.pos) ∧
        Token.kept t.leaves = Token.kept ts := by
  refine ⟨fun depth => (Grammar.sound_ofDepth depth).keepsFault, ?_⟩
  cases h : Tree.parse source with
  | error f =>
    refine ⟨Tree.stage_of_parse h, ?_⟩
    rw [Tree.parse] at h
    split at h
    · next hfault =>
      cases h
      exact hfault
    · cases h
  | ok t =>
    refine ⟨Tree.parses_parse h, ?_⟩
    obtain ⟨p, stmts, ts, e, v, rfl, hscan, he, hts, hsplit, hderives⟩ := Tree.derives_parse h
    obtain ⟨w, hw, hsub⟩ := hderives.among.node
    have hplaces := hsplit.pairwise (Token.pairwise_scan hscan fun u hu => (hts u hu).2)
    refine ⟨ts, e, v, w, hscan, he, hts, hsplit, hw, hsub, hplaces.sublist hsub, ?_⟩
    rw [Tree.leaves, hderives.kept_leavesAll (forall_mem_nil _), hsplit.kept_eq]

end Covenant
