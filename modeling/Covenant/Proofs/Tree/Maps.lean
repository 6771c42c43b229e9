import Covenant.Proofs.Tree.Single

/-!
# How maps are declared

A map is declared by a statement of its own, with its name behind or in front of its types, or by a
constant with a decorator, which may give the types itself or leave them to the value.  The types
stand between brackets or braces in all of them; these lemmas say what is read around the types.
-/

namespace Covenant.Parser.Proceeds

open Grammar List

variable {α : Type}

/-! ### Repetitions -/

theorem many_one {item? : Parser (Option α)} (hne : hs ≠ [])
    (h : Proceeds us item? z hs (pure (some a)) y hs')
    (hend : Proceeds us item? y hs' (pure none) y hs') :
    Proceeds us (many item?) z hs (pure [a]) y hs' := by
  refine .get fun c hc => ?_
  have hlength := length_pos_of_ne_nil hne
  obtain ⟨fuel, hfuel⟩ : ∃ n, c.bound = n + 1 + 1 := ⟨c.bound - 2, by omega⟩
  exact h.call (.call (hend.call (.refl _ _ _)) (.refl _ _ _))

/-! ### Values -/

section

variable {m p q : Token}

/-- The creation of an object with type arguments and no others. -/
theorem creation (ih : (Phrase.separated .greater .type).IsRead ts w)
    (hhs : Forall₂ (Token.Alike true) hs w) (hdepth : w.length ≤ depth)
    (hm : m.kind = .ident) (hl : l.kind = .less) (hp : p.kind = .lparen) (hq : q.kind = .rparen) :
    ∃ vs, Tree.AllLike vs ts ∧ ∀ us rest z,
      Proceeds us (Grammar.creation (.ofDepth depth)) z (m :: l :: (hs ++ p :: q :: rest))
        (pure (.ofRule .newExpr z (.leaf m :: vs ++ [.ofRule .arguments p []]))) q rest := by
  obtain ⟨vs, hvs, hanswers⟩ := Phrase.answers_typeArguments ih hhs hdepth
  refine ⟨vs, hvs, fun us rest z => ?_⟩
  have hclear : Clear hs (p :: q :: rest ++ us) := by
    refine clear_of_head ?_
    rintro _ ⟨⟩
    rw [hp]
    decide
  have harguments : Proceeds us (arguments (.ofDepth depth)) p (q :: rest) (pure []) q rest :=
    .ifPeek (by decide) hq (.advance (by rw [hq]; decide) (.refl _ _ _))
  refine .cur (.expect (by decide) hm (.ifPeek (by decide) hl (.advance (by rw [hl]; decide) ?_)))
  exact hanswers.call hclear (.expect (by decide) hp (harguments.call (.refl _ _ _)))

/-! ### Statements -/

theorem statement_map (hm : m.kind = .ident)
    (hword : m.literal = "map") (hl : l.kind = .less ∨ l.kind = .ident)
    (h : Proceeds us (mapDecl g) m (l :: hs) r x hs') :
    Proceeds us (statementRule g) m (l :: hs) r x hs' := by
  refine .cur ?_
  rw [hm]
  refine .peek (fun hk => by rw [hk] at hl; revert hl; decide) ?_
  rw [if_pos ⟨rfl, hword, hl⟩]
  exact h

variable {u v : Tree}

section

variable (ih : (Phrase.separated .greater .type).IsRead [u, v] w)
    (hhs : Forall₂ (Token.Alike true) hs w) (hdepth : w.length ≤ depth) (hm : m.kind = .ident)
    (hword : m.literal = "map")

include ih hhs hdepth hm hword

/-- `map<K, V> n;` -/
theorem mapTypes (hl : l.kind = .less) (hn : n.kind = .ident)
    (hs' : s.kind = .semicolon) : ∃ vs, Tree.AllLike vs [u, v] ∧ ∀ us rest,
      Proceeds us (statementRule (.ofDepth depth)) m (l :: (hs ++ n :: s :: rest))
        (pure (.ofRule .mapDecl m (vs ++ [.leaf n]))) s rest := by
  obtain ⟨vs, hvs, hanswers⟩ := Phrase.answers_typeArguments ih hhs hdepth
  have htwo : ¬ vs.length ≠ 2 := not_not.2 hvs.length_eq
  refine ⟨vs, hvs, fun us rest => statement_map hm hword (.inl hl) ?_⟩
  have hearly : ∀ t ∈ (l :: (hs ++ n :: s :: rest) ++ us).head?, t.kind ≠ .ident := by
    rintro _ ⟨⟩
    rw [hl]
    decide
  have hclear : Clear hs (n :: s :: rest ++ us) := by
    refine clear_of_head ?_
    rintro _ ⟨⟩
    rw [hn]
    decide
  refine .cur (.call (.unlessPeek (by decide) hearly (.refl _ _ _)) (.pass (by decide) hl ?_))
  refine hanswers.call hclear ?_
  rw [if_neg htwo]
  exact .expect (by decide) hn (.semicolon hs' (.refl _ _ _))

/-- `map n: Map<K, V>;` -/
theorem mapNamed {t : Token} (hn : n.kind = .ident)
    (hc : c.kind = .colon) (ht : t.kind = .ident) (hword' : t.literal.equalFold "map" = true)
    (hl : l.kind = .less) (hs' : s.kind = .semicolon) : ∃ vs, Tree.AllLike vs [u, v] ∧ ∀ us rest,
      Proceeds us (statementRule (.ofDepth depth)) m (n :: c :: t :: l :: (hs ++ s :: rest))
        (pure (.ofRule .mapDecl m (vs ++ [.leaf n]))) s rest := by
  obtain ⟨vs, hvs, hanswers⟩ := Phrase.answers_typeArguments ih hhs hdepth
  have htwo : ¬ vs.length ≠ 2 := not_not.2 hvs.length_eq
  refine ⟨vs, hvs, fun us rest => statement_map hm hword (.inr hn) ?_⟩
  have hname : Proceeds us mapName? m (n :: c :: t :: l :: (hs ++ s :: rest)) (pure (some n)) t
      (l :: (hs ++ s :: rest)) := by
    refine .ifPeek (by decide) hn (.advance (by rw [hn]; decide) (.cur ?_))
    refine .pass (by decide) hc (.expect (by decide) ht ?_)
    rw [if_pos hword']
    exact .refl _ _ _
  have hclear : Clear hs (s :: rest ++ us) := by
    refine clear_of_head ?_
    rintro _ ⟨⟩
    rw [hs']
    decide
  refine .cur (hname.call (.pass (by decide) hl (hanswers.call hclear ?_)))
  rw [if_neg htwo]
  exact .semicolon (f := fun _ => pure (Tree.ofRule .mapDecl m (vs ++ [.leaf n]))) hs' (.refl _ _ _)

end

end

/-! ### Decorated constants -/

section

variable {d p q b : Token} {ts : List Tree} {w : List Token} {depth : Nat}

theorem decorator_bare (hc : c.kind ≠ .lparen) :
    Proceeds us (decorator g) d (c :: rest) (pure (.ofRule .decorator d [.leaf d])) d
      (c :: rest) := by
  refine .cur (.unlessPeek (by decide) ?_ (.refl _ _ _))
  rintro _ ⟨⟩
  exact hc

theorem decorator_shaped
    (ih : (Phrase.delimited [.comma, .semicolon] .rbrace .typeField).IsRead ts w)
    (hhs : Forall₂ (Token.Alike true) hs w) (hdepth : w.length ≤ depth)
    (hd : d.literal = "@map") (hp : p.kind = .lparen) (hb : b.kind = .lbrace)
    (hq : q.kind = .rparen) : ∃ vs, Tree.AllLike vs ts ∧ ∀ us rest,
      Proceeds us (decorator (.ofDepth depth)) d (p :: b :: (hs ++ q :: rest))
        (pure (.ofRule .decorator d [.leaf d, .ofRule .tupleType b vs])) q rest := by
  obtain ⟨vs, hvs, hanswers⟩ := ih hs hhs depth hdepth rfl rfl rfl
  refine ⟨vs, hvs, fun us rest => ?_⟩
  have hclear : Clear hs (q :: rest ++ us) := by
    refine clear_of_head ?_
    rintro _ ⟨⟩
    rw [hq]
    decide
  have htuple : Proceeds us (tupleType (.ofDepth depth)) b (hs ++ q :: rest)
      (pure (.ofRule .tupleType b vs)) (hs.getLastD b) (q :: rest) :=
    .cur (hanswers.call hclear (.refl _ _ _))
  have hargument : Proceeds us (decoratorArgument (.ofDepth depth)
      (d.literal = Bytes.ofString "@map")) d (p :: b :: (hs ++ q :: rest))
      (pure (.ofRule .tupleType b vs)) q rest := by
    rw [decide_eq_true hd]
    refine .advance (by rw [hp]; decide) (.peekIs (by decide) hb ?_)
    refine .advance (by rw [hb]; decide) (htuple.call (.pass (by decide) hq (.refl _ _ _)))
  exact .cur (.ifPeek (by decide) hp (hargument.call (.refl _ _ _)))

/-- A constant behind one decorator. -/
theorem decorated (hne : hs ≠ []) (hd : d.kind = .decorator) (hc : c.kind = .kwConst)
    (h : Proceeds us (decorator g) d hs (pure D) y (c :: rest)) :
    Proceeds us (statementRule g) d hs (binding g .constantDecl [D]) c rest := by
  have hcur {k : Token} {vs : List Token} : Proceeds us (curIs .decorator) k vs
      (pure (decide (k.kind = .decorator))) k vs := .cur (.refl _ _ _)
  have hfirst : Proceeds us (decorator? g) d hs (pure (some D)) c rest := by
    refine hcur.call ?_
    rw [decide_eq_true hd]
    exact h.call (.advance (by rw [hc]; decide) (.refl _ _ _))
  have hnone : Proceeds us (decorator? g) c rest (pure none) c rest := by
    refine hcur.call ?_
    rw [hc]
    exact .refl _ _ _
  refine .cur ?_
  rw [hd]
  refine (many_one hne hfirst hnone).call (.cur ?_)
  rw [hc]
  exact .refl _ _ _

theorem binding_bare (rule : Rule) (ds : List Tree) (hn : n.kind = .ident)
    (hs' : s.kind = .semicolon) :
    Proceeds us (binding g rule ds) c (n :: s :: rest) (pure (.ofRule rule c (ds ++ [.leaf n]))) s
      rest := by
  have hnext {k : TokenKind} (hk : k ≠ .semicolon) : ∀ t ∈ (s :: rest ++ us).head?, t.kind ≠ k := by
    rintro _ ⟨⟩
    exact hs' ▸ hk.symm
  refine .cur (.expect (by decide) hn ?_)
  refine .call (.unlessPeek (by decide) (hnext (by decide)) (.refl (pure []) _ _)) ?_
  refine .unlessPeek (by decide) (hnext (by decide)) (.call (.refl _ _ _) (.semicolon hs' ?_))
  rw [append_nil]
  exact .refl _ _ _

end

end Covenant.Parser.Proceeds
