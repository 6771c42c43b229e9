import Covenant.Proofs.Tree.TypeText

/-!
# Sources of one statement

A source that holds a single statement is parsed to the tree that the parser of statements answers
for its tokens.  What follows an expression in such a source is the semicolon, so no suffix and no
operator is read behind it.
-/

namespace Covenant

open List

/-- The tree of an expression behind signs, the first of which is the outermost. -/
def Tree.signed (signs : List Token) (t : Tree) : Tree :=
  signs.foldr (fun m t => .ofRule .unary m [.leaf m, t]) t

namespace Parser.Proceeds

open Grammar

variable {α : Type}

theorem many_none {item? : Parser (Option α)} (h : Proceeds us item? z hs (pure none) z hs) :
    Proceeds us (many item?) z hs (pure []) z hs := by
  refine .get fun c hc => ?_
  obtain ⟨fuel, hfuel⟩ : ∃ n, c.bound = n + 1 := ⟨c.bound - 1, by omega⟩
  exact h.call (.refl _ _ _)

theorem semicolon (hs : s.kind = .semicolon) (hf : Proceeds us (f ()) s rest r x hs') :
    Proceeds us (optionalSemicolon >>= f) z (s :: rest) r x hs' := by
  refine .call (b := ()) (.ifPeek (by decide) hs fun c hc => ?_) hf
  exact ⟨c.advance, rfl, hc.advance (by rw [hs]; decide)⟩

/-! ### Expressions -/

theorem unary_of_primary (hs' : s.kind = .semicolon) (hz : z.kind ≠ .bang ∧ z.kind ≠ .minus)
    (h : Proceeds us (primary g) z hs (pure e) y (s :: rest)) :
    Proceeds us (unaryRule g) z hs (pure e) y (s :: rest) := by
  have hgreater : s.kind ≠ .greater := by rw [hs']; decide
  have hsuffixed : Proceeds us (suffixed g) z hs (pure e) y (s :: rest) := by
    refine h.call (.call (many_none (.peek hgreater ?_)) (.refl _ _ _))
    rw [hs']
    exact .refl _ _ _
  refine .cur ?_
  rw [if_neg (not_or.2 hz)]
  exact hsuffixed

/-- An operand with nothing behind it but the end of the statement. -/
theorem expression_of_unary (hs' : s.kind = .semicolon)
    (h : Proceeds us (unaryRule g) z hs (pure e) y (s :: rest)) :
    Proceeds us (expressionRule g) z hs (pure e) y (s :: rest) := by
  have hgreater : s.kind ≠ .greater := by rw [hs']; decide
  have hnext {k : TokenKind} (hk : k ≠ .semicolon) : ∀ t ∈ (s :: rest ++ us).head?, t.kind ≠ k := by
    rintro _ ⟨⟩
    exact hs' ▸ hk.symm
  have hbinary (levels : List Level) :
      Proceeds us (binary g levels) z hs (pure e) y (s :: rest) := by
    induction levels with
    | nil => exact h
    | cons level tighter ih =>
      have hlevel : level.operators.contains s.kind = false := by
        rw [hs']
        cases level <;> decide
      refine ih.call (.call (many_none (.peek hgreater ?_)) (.refl _ _ _))
      rw [hlevel]
      exact .refl _ _ _
  have hconditional : Proceeds us (conditionalRule g) z hs (pure e) y (s :: rest) :=
    (hbinary _).call (.unlessPeek (by decide) (hnext (by decide)) (.refl _ _ _))
  exact hconditional.call (.unlessPeek (by decide) (hnext (by decide)) (.refl _ _ _))

theorem literal {d : Token} (hd : d.kind = .int ∨ d.kind = .string) :
    Proceeds us (primary g) d hs (pure (.ofRule .literal d [.leaf d])) d hs := by
  refine .cur ?_
  obtain hd | hd := hd <;> rw [hd] <;> exact .refl _ _ _

/-- A literal behind signs.  Each sign takes one level of the grammar. -/
theorem signed {d : Token} (hsigns : ∀ m ∈ signs, m.kind = .minus)
    (hd : d.kind = .int) (hs' : s.kind = .semicolon) (hdepth : signs.length ≤ depth)
    (hz : signs ++ [d] = z :: hs) : Proceeds us (unaryRule (.ofDepth depth)) z (hs ++ s :: rest)
      (pure (Tree.signed signs (.ofRule .literal d [.leaf d]))) d (s :: rest) := by
  induction signs generalizing depth z hs with
  | nil =>
    cases hz
    exact unary_of_primary hs' (by rw [hd]; decide) (literal (.inl hd))
  | cons m signs ih =>
    obtain ⟨hm, hsigns⟩ := forall_mem_cons.1 hsigns
    rw [cons_append] at hz
    obtain ⟨rfl, rfl⟩ := List.cons.inj hz
    obtain ⟨depth, rfl⟩ : ∃ n, depth = n + 1 := ⟨depth - 1, by simp at hdepth; omega⟩
    obtain ⟨x, vs, hx⟩ := exists_cons_of_ne_nil (append_ne_nil_of_right_ne_nil _ (cons_ne_nil d []))
    have hkind : x.kind = .minus ∨ x.kind = .int := by
      have hmem : x ∈ signs ++ [d] := hx ▸ mem_cons_self
      obtain hmem | hmem := mem_append.1 hmem
      · exact .inl (hsigns x hmem)
      · exact .inr (mem_singleton.1 hmem ▸ hd)
    refine .cur ?_
    rw [if_pos (.inr hm), hx]
    refine .advance (by obtain h | h := hkind <;> rw [h] <;> decide) ?_
    exact (ih hsigns (by simpa using hdepth) hx).call (.refl _ _ _)

/-! ### Statements -/

theorem binding_value (rule : Rule) (ds : List Tree) (hn : n.kind = .ident) (ha : a.kind = .assign)
    (ht : t.kind ≠ .greater) (hs' : s.kind = .semicolon)
    (h : Proceeds us g.expression t hs (pure e) y (s :: rest)) :
    Proceeds us (binding g rule ds) c (n :: a :: t :: hs)
      (pure (.ofRule rule c (ds ++ [.leaf n, e]))) s rest := by
  have hnext : ∀ t ∈ (a :: t :: hs ++ us).head?, t.kind ≠ .colon := by
    rintro _ ⟨⟩
    rw [ha]
    decide
  refine .cur (.expect (by decide) hn ?_)
  refine .call (.unlessPeek (by decide) hnext (.refl (pure []) _ _)) ?_
  refine .ifPeek (by decide) ha (.advance (by rw [ha]; decide) (.advance ht (h.call ?_)))
  refine .call (.refl _ _ _) (.semicolon hs' ?_)
  rw [append_assoc]
  exact .refl _ _ _

theorem statement_const (hc : c.kind = .kwConst)
    (h : Proceeds us (binding g .constantDecl []) c hs r x hs') :
    Proceeds us (statementRule g) c hs r x hs' := by
  refine .cur ?_
  rw [hc]
  exact h

theorem statement_expr (hz : z.kind = .minus ∨ z.kind = .int) (ht : t.kind ≠ .greater)
    (hs' : s.kind = .semicolon) (h : Proceeds us (unaryRule g) z (t :: hs) (pure e) y (s :: rest)) :
    Proceeds us (statementRule g) z (t :: hs) (pure (.ofRule .exprStmt z [e])) s rest := by
  have hstmt : Proceeds us (exprStmt g) z (t :: hs) (pure (.ofRule .exprStmt z [e])) s rest :=
    .cur ((expression_of_unary hs' h).call (.semicolon hs' (.refl _ _ _)))
  refine .cur ?_
  obtain hz | hz := hz <;>
  · rw [hz]
    exact .peek ht hstmt

end Parser.Proceeds

open Covenant.Parser (Proceeds)
open Token (Split)

/-- The tree of a source of one statement, whose tokens may be cut. -/
theorem Tree.exists_parse_one {P : Tree → Prop} {source : Bytes} {z e : Token}
    (hscan : Token.scan source = ts ++ [e]) (he : e.kind = .eof) (hsplit : Split ts (z :: hs))
    (hlegal : Legal (z :: hs)) (hz : z.kind ≠ .greater ∧ z.kind ≠ .eof)
    (h : ∀ depth, hs.length ≤ depth → ∃ y t, P t ∧
      ∀ us, Proceeds us (Grammar.statementRule (.ofDepth depth)) z hs (pure t) y []) :
    ∃ t, parse source = .ok (.ofRule .program z [t]) ∧ P t := by
  have hlegal' := forall_mem_append.2 ⟨hlegal, forall_mem_singleton.2 (by rw [he]; decide)⟩
  obtain ⟨hc, hadvance⟩ := Cursor.stands_of_scan hscan hsplit (cons_ne_nil e []) hlegal' e
  have hc' := hc.advance hz.1
  rw [hadvance] at hc'
  have hbound := hc'.length_lt_bound
  rw [length_singleton] at hbound
  obtain ⟨y, t, hP, hproceeds⟩ := h _ (Nat.le_of_succ_le (Nat.le_of_lt hbound))
  refine ⟨t, ?_, hP⟩
  obtain ⟨_, hd, _, rfl, hnil, -⟩ := hproceeds [e] _ hc'
  cases hnil
  obtain ⟨fuel, hfuel⟩ : ∃ n, (Cursor.ofSource source).bound = n + 2 :=
    ⟨(Cursor.ofSource source).bound - 2, by omega⟩
  obtain ⟨us, hon, -⟩ := hc'
  have hend : (Cursor.on y ([] ++ [e])).advance = .on e [] :=
    Cursor.advance_on_of_head (by rw [headD_nil, he]; decide)
  have hstatements := Grammar.statements_one (g := .ofDepth ((Cursor.ofSource source).bound + 1))
    (by rw [hon]; exact hz.2) (by rw [hon]; rfl) hd (by rw [hend]; exact he) fuel
  rw [← hfuel, hend] at hstatements
  have hstart : Cursor.ofTokens (Token.scan source) = .ofSource source := rfl
  rw [parse, Parsed.ofSource, Parsed.ofTokens, hstart, hstatements, hon]
  rfl

end Covenant
