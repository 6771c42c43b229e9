import Covenant.Proofs.Tree.Continuation

/-!
# Parsing a source with more text behind it

A source that ends with a semicolon is parsed as before when other statements follow it, and they
are parsed as if they stood alone.
-/

namespace Covenant

open List Cursor

open Token (EndsOnSemicolon IsApart)

/-! ### Runs of statements -/

namespace Grammar

/-- Statements up to the last semicolon are read again when more follows, and lead to it. -/
theorem Parses.continues (hR : TokenLike R) (hmore : IsApart more)
    (hmn : m ≤ n) (h : (ofDepth m).Parses c ts e)
    (he : e.cur.kind = .eof) (hc : c.cur.kind ≠ .eof) (hends : c.Ends)
    (hcd : Cursor.Continues R more c d) :
    ∃ (ts' : List Tree) (d' : Cursor), Forall₂ (Tree.Like R) ts ts' ∧ d'.ahead = more ∧
      d'.fault = none ∧ ∀ us e', (ofDepth n).Parses d'.advance us e' →
        (ofDepth n).Parses d (ts' ++ us) e' := by
  have hsound := sound_ofDepth m
  induction h generalizing d with
  | done c => exact absurd he hc
  | @step t ts e c c₁ hcur _ ht hts ih =>
    obtain ⟨w, hw, -, hfree⟩ := hsound.exists_of_statement ht
    have hends₁ := (hends.of_eats hw (Token.endFree_cons.1 hfree).2).1
    have hcur₁ : c₁.cur.kind ≠ .eof :=
      hfree _ (mem_of_getLast? hw.getLast?)
    have hfirm := Like.firm_statement (S := .ofContinuation hR hmore) ⟨hmn, nofun⟩
    obtain ⟨t', d₁, ht', hlike, hcd₁⟩ := hfirm (Simulation.stopsBetween_ofContinuation hR hmore)
      (Like.inner_of_statement hsound ht) hcd ht hcur₁
    have hstep {us : List Tree} {e' : Cursor} (hus : (ofDepth n).Parses d₁.advance us e') :
        (ofDepth n).Parses d (t' :: us) e' :=
      .step (hR.kind hcd.cur ▸ hcur) hcd.fault.2 ht' hus
    by_cases hrest : c₁.rest = []
    · -- the last statement
      have heof := hends₁.rest_eq_nil_iff.1 hrest
      cases hts with
      | step hcur₂ => exact absurd (c₁.cur_advance ▸ heof) hcur₂
      | done =>
        obtain ⟨-, ⟨-, hfault⟩, ts, us, e, hc₁, hd₁, htsus, -⟩ := hcd₁
        rw [ahead, hrest] at hc₁
        obtain ⟨rfl, -⟩ := append_inj' (show [] ++ [c₁.peek] = ts ++ [e] from hc₁) rfl
        cases htsus
        exact ⟨[t'], d₁, .cons hlike .nil, hd₁, hfault, fun us e' hus => hstep hus⟩
    · have hpeek : c₁.advance.cur.kind ≠ .eof := by
        rw [cur_advance]
        exact fun h => hrest (hends₁.rest_eq_nil_iff.2 h)
      obtain ⟨ts', d', hts', hahead, hfault, hmore'⟩ :=
        ih he hpeek hends₁.advance (hcd₁.advance hR hmore (.inr hrest))
      exact ⟨t' :: ts', d', .cons hlike hts', hahead, hfault, fun us e' hus =>
        hstep (hmore' us e' hus)⟩

/-- Statements are read again from corresponding tokens. -/
theorem Parses.like (hR : TokenLike R) (hmn : m ≤ n)
    (h : (ofDepth m).Parses c ts e) (hcd : Cursor.Like R c d) :
    ∃ ts' e', (ofDepth n).Parses d ts' e' ∧ Forall₂ (Tree.Like R) ts ts' ∧
      Cursor.Like R e e' := by
  induction h generalizing d with
  | done c => exact ⟨[], d, .done d, .nil, hcd⟩
  | @step t ts e c c₁ hcur hfault ht hts ih =>
    have hgrammar : Like (.ofTokens hR false) (.ofDepth m) (.ofDepth n) :=
      .ofDepth ⟨hmn, nofun⟩
    have hrun := hgrammar.statement.results hcd
    rw [ht] at hrun
    cases hd : (ofDepth n).statement d with
    | error f =>
      rw [hd] at hrun
      exact hrun.1.elim
    | ok y =>
      rw [hd] at hrun
      obtain ⟨hlike, hcd₁⟩ | ⟨hstuck, -⟩ := hrun
      · obtain ⟨ts', e', hts', hlikes, hend⟩ := ih (hcd₁.advance hR)
        have hnone : d.fault = none := by
          have hmap := hcd.fault
          rw [hfault] at hmap
          exact Option.map_eq_none_iff.1 hmap.symm
        exact ⟨y.1 :: ts', e', .step (hR.kind hcd.cur ▸ hcur) hnone hd hts',
          .cons hlike hlikes, hend⟩
      · exact hstuck.elim

theorem Parses.statements_eq {g : Grammar} (hg : g.Sound)
    (h : g.Parses c ts d) (hd : d.cur.kind = .eof) (hfault : d.fault = none) (hends : c.Ends)
    (hfuel : c.cur.kind = .eof ∨ Token.weight c.ahead < fuel) :
    g.statements fuel c = (ts, none) := by
  induction h generalizing fuel with
  | done c =>
    cases fuel with
    | zero => rw [statements, hfault]
    | succ fuel => rw [statements, if_pos (.inl hd), hfault]
  | @step c c₁ d t ts hcur hnone ht hts ih =>
    obtain ⟨w, hw, -, hfree⟩ := hg.exists_of_statement ht
    obtain ⟨hc₁, hsplit⟩ := hends.of_eats hw (Token.endFree_cons.1 hfree).2
    have hbound := hfuel.resolve_left hcur
    cases fuel with
    | zero => exact absurd hbound (Nat.not_lt_zero _)
    | succ fuel =>
      have hnext := hc₁.weight_advance hsplit hbound
      rw [statements, if_neg (by simp [hcur, hnone]), ht]
      simp only [ih hd hfault hc₁.advance hnext]

end Grammar

/-! ### Whole sources -/

namespace Cursor

theorem fault_ofTokens (h : ∀ t ∈ ts, t.kind ≠ .illegal) : (ofTokens ts).fault = none := by
  match ts with
  | [] => rfl
  | [t] => exact fault_note_eq_none.2 ⟨rfl, h t mem_cons_self⟩
  | t :: u :: ts =>
    exact fault_note_eq_none.2 ⟨fault_note_eq_none.2 ⟨rfl, h t mem_cons_self⟩,
      h u (mem_cons_of_mem _ mem_cons_self)⟩

theorem bound_ofTokens (ts : List Token) : (ofTokens ts).bound = 2 * (ts.length - 2) + 4 := by
  match ts with
  | [] => rfl
  | [t] =>
    rw [ofTokens, note]
    split <;> rfl
  | t :: u :: ts =>
    rw [ofTokens, note, note]
    split <;> split <;> rfl

theorem advance_eq_ofTokens {c : Cursor} (hfault : c.fault = none)
    (hpeek : c.peek.kind ≠ .illegal) :
    c.advance = ofTokens c.ahead := by
  obtain ⟨cur, peek, rest, fault⟩ := c
  obtain rfl : fault = none := hfault
  cases rest with
  | nil => rfl
  | cons t ts =>
    change _ = (note peek _).note t
    rw [show note peek _ = _ from if_neg hpeek]
    rfl

theorem ofTokens_append (t : Token) (ts : List Token) (hus : us ≠ []) :
    (ofTokens (t :: ts ++ us)).cur = t ∧ (ofTokens (t :: ts ++ us)).ahead = ts ++ us := by
  obtain ⟨u, vs, hvs⟩ := exists_cons_of_ne_nil
    (append_ne_nil_of_right_ne_nil ts hus)
  rw [cons_append, hvs]
  exact ofTokens_cons t u vs

theorem continues_ofTokens (hR : TokenLike R) (hmore : IsApart more)
    {e : Token} (heof : e.kind = .eof) (he : ∃ e', R e e')
    (hlegal : ∀ t ∈ ts, t.kind ≠ .illegal ∧ t.kind ≠ .eof) (hend : EndsOnSemicolon ts)
    (hvs : Forall₂ R ts vs) :
    (ofTokens (ts ++ [e])).cur.kind ≠ .eof ∧
      Continues R more (ofTokens (ts ++ [e])) (ofTokens (vs ++ more)) := by
  have hillegal : ∀ t ∈ ts, t.kind ≠ .illegal := fun t ht => (hlegal t ht).1
  have hfault : (ofTokens (ts ++ [e])).fault = none := by
    refine fault_ofTokens (forall_mem_append.2 ⟨hillegal, forall_mem_singleton.2 ?_⟩)
    rw [heof]
    exact TokenKind.noConfusion
  have hfault' :=
    fault_ofTokens (forall_mem_append.2 ⟨Token.legal_of_like hR hvs hillegal, hmore.legal⟩)
  cases hvs with
  | nil => cases hend
  | @cons t v ts vs htv hvs =>
    obtain ⟨hcur, hahead⟩ := ofTokens_append t ts (cons_ne_nil e [])
    obtain ⟨hcur', hahead'⟩ := ofTokens_append v vs hmore.ne_nil
    refine ⟨?_, ?_, ⟨hfault, hfault'⟩, ts, vs, e, hahead, hahead', hvs, heof, he,
      (forall_mem_cons.1 hillegal).2, ?_⟩
    · rw [hcur]
      exact (forall_mem_cons.1 hlegal).1.2
    · rwa [hcur, hcur']
    · rwa [hcur]

end Cursor

/-- **A source behind another one is parsed as if it stood alone**, and so is the one before it,
when that ends with a semicolon. -/
theorem Tree.parse_append (hR : TokenLike R) {first second joined : Bytes}
    (hfirst : parse first = .ok (.node .program p stmts))
    (hsecond : parse second = .ok (.node .program q more))
    (hts : Token.scan first = ts ++ [e]) (hend : EndsOnSemicolon ts) (he : ∃ e', R e e')
    (hjoined : Token.scan joined = vs ++ ws) (hvs : Forall₂ R ts vs)
    (hws : Forall₂ R (Token.scan second) ws) : stmts ≠ [] ∧ ∃ r stmts' more',
      parse joined = .ok (.node .program r (stmts' ++ more')) ∧
      Forall₂ (Like R) stmts stmts' ∧ Forall₂ (Like R) more more' := by
  have hapart : IsApart ws := (Token.isApart_scan hsecond).of_like hR hws
  obtain ⟨heof, hlegal⟩ : e.kind = .eof ∧ ∀ t ∈ ts, t.kind ≠ .illegal ∧ t.kind ≠ .eof := by
    obtain ⟨-, -, ts', e', -, -, hscan, heof, hlegal, -⟩ := derives_parse hfirst
    obtain ⟨rfl, heq⟩ := append_inj' (hts.symm.trans hscan) rfl
    obtain rfl := (List.cons.inj heq).1
    exact ⟨heof, fun t ht => (hlegal t ht).symm⟩
  obtain ⟨_, _, c', heq, hparses, hc', -⟩ := parses_parse hfirst
  cases heq
  obtain ⟨_, _, d', heq, hparses', hd', hfault'⟩ := parses_parse hsecond
  cases heq
  have hbound : (ofSource first).bound ≤ (ofSource joined).bound ∧
      (ofSource second).bound ≤ (ofSource joined).bound := by
    have hpos := length_pos_iff.2 hapart.ne_nil
    simp only [ofSource, bound_ofTokens, hts, hjoined, hws.length_eq, hvs.length_eq,
      length_append, length_singleton]
    omega
  obtain ⟨hcur, hcontinues⟩ := continues_ofTokens hR hapart heof he hlegal hend hvs
  rw [← hts, ← hjoined] at hcontinues
  rw [← hts] at hcur
  -- the statements before the last semicolon, and the cursor on it
  obtain ⟨stmts', d₁, hstmts, hahead, hfault₁, hgo⟩ := hparses.continues hR hapart
    (Nat.succ_le_succ hbound.1) hc' hcur (ends_ofSource first) hcontinues
  have hnext : Cursor.Like R (.ofSource second) d₁.advance := by
    have hpeek := hapart.legal d₁.peek (by rw [← hahead]; exact mem_cons_self)
    rw [advance_eq_ofTokens hfault₁ hpeek, hahead]
    exact like_ofTokens hR hws
  obtain ⟨more', e₁, hmore, hlike, hend₁⟩ := hparses'.like hR (Nat.succ_le_succ hbound.2) hnext
  have hfault₂ : e₁.fault = none := by
    have hmap := hend₁.fault
    rw [hfault'] at hmap
    exact Option.map_eq_none_iff.1 hmap.symm
  have hall := (hgo _ _ hmore).statements_eq (Grammar.sound_ofDepth _) (hR.kind hend₁.cur ▸ hd')
    hfault₂ (ends_ofSource joined) (.inr (weight_lt_bound _))
  have hparsed : Parsed.ofSource joined =
      ⟨.ofRule .program (ofSource joined).cur (stmts' ++ more'), none⟩ :=
    congrArg (fun x : List Tree × Option Fault =>
      (⟨.ofRule .program (ofSource joined).cur x.1, x.2⟩ : Parsed)) hall
  refine ⟨?_, (ofSource joined).cur.pos, stmts', more', ?_, hstmts, hlike⟩
  · rintro rfl
    cases hparses
    exact hcur hc'
  rw [parse, hparsed]
  rfl

end Covenant
