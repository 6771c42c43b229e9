import Covenant.Proofs.Token.Quotation
import Covenant.Proofs.Tree.Derivation.Source
import Covenant.Proofs.Tree.Likeness.Grammar

/-!
# Where faults are reported

A parser that fails reports the place of a token, or, when it expects another token, the place
behind the one it stands on.  The places of tokens are places of the source.  The one behind a token
is counted in bytes of its literal, while columns count glyphs, and the literal of a string or of a
principal is not the text that it was read from.  So the report points right behind the lexeme for
names, numbers and symbols of single bytes, and elsewhere for others.

* `Token.exists_liesIn` : where the tokens of a source lie.
* `Simulation.sited` : a run reports places of the tokens it runs on.
* `Tree.parse_fault_places` : the places of faults, and when they are places of the source.
-/

namespace Covenant

open List

/-! ### Bytes of lexemes -/

theorem Bytes.length_ofGlyphs_cons (g : Glyph) (gs : List Glyph) :
    (ofGlyphs (g :: gs)).length = g.bytes.length + (ofGlyphs gs).length := by
  rw [ofGlyphs_cons, length_append]

theorem Bytes.length_ofGlyphs_eq_iff (gs : List Glyph) :
    (ofGlyphs gs).length = gs.length ↔ ∀ g ∈ gs, g.bytes.length = 1 := by
  induction gs with
  | nil => simp [ofGlyphs]
  | cons g gs ih =>
    have hg := length_pos_iff.2 g.bytes_ne_nil
    have hgs : gs.length ≤ (ofGlyphs gs).length :=
      length_le_length_flatMap fun g _ => g.bytes_ne_nil
    rw [forall_mem_cons, ← ih, length_ofGlyphs_cons, length_cons]
    omega

theorem Scanner.Encodes.length_le {inner : List Glyph} (h : Encodes quote inner body) :
    body.length ≤ (Bytes.ofGlyphs inner).length := by
  induction h with
  | nil => exact Nat.zero_le _
  | glyph _ _ ih =>
    rw [length_append, Bytes.length_ofGlyphs_cons]
    omega
  | @escape g _ _ _ ih =>
    have hescaped : (escaped g).length ≤ 1 + g.bytes.length := by
      unfold escaped
      split
      iterate 5 exact Nat.le_add_right_of_le (by decide)
      rw [length_append, length_take]
      exact Nat.add_le_add (by decide) (Nat.min_le_right _ _)
    have hslash : (Glyph.char '\x5c').bytes.length = 1 := by decide
    rw [length_append, Bytes.length_ofGlyphs_cons, Bytes.length_ofGlyphs_cons, hslash]
    omega

/-! ### Lines of a source -/

/-- The line is a whole one, between the glyphs before it and those behind it. -/
structure Glyph.IsLine (before line behind : List Glyph) : Prop where
  starts : before = [] ∨ before.getLast? = some (.char '\n')
  single : .char '\n' ∉ line
  ends : behind = [] ∨ behind.head? = some (.char '\n')

/-- The place is on a line of the source, or one column behind its end. -/
def Pos.IsIn (source : Bytes) (p : Pos) : Prop :=
  ∃ before line behind, source.glyphs = before ++ (line ++ behind) ∧
    Glyph.IsLine before line behind ∧ p.line = 1 + before.count (.char '\n') ∧
    0 ≤ p.column ∧ p.column ≤ line.length + 1

/-- The place of the last of some glyphs is on the line that they end in. -/
theorem Pos.exists_isLine (front back : List Glyph) : ∃ before start,
    front = before ++ start ∧ ofGlyphs front = ⟨1 + before.count (.char '\n'), start.length⟩ ∧
      Glyph.IsLine before (start ++ back.takeWhile (· ≠ .char '\n'))
        (back.dropWhile (· ≠ .char '\n')) := by
  have hends : back.dropWhile (· ≠ .char '\n') = [] ∨
      (back.dropWhile (· ≠ .char '\n')).head? = some (.char '\n') := by
    have hhead := head?_dropWhile_not (fun g => decide (g ≠ Glyph.char '\n')) back
    cases hback : back.dropWhile (· ≠ .char '\n') with
    | nil => exact .inl rfl
    | cons g gs =>
      rw [hback] at hhead
      exact .inr (by simpa using hhead)
  have hback : .char '\n' ∉ back.takeWhile (· ≠ .char '\n') := fun h => by
    simpa using mem_takeWhile_imp h
  induction front using reverseRecOn with
  | nil => exact ⟨[], [], rfl, rfl, .inl rfl, hback, hends⟩
  | append_singleton front g ih =>
    obtain ⟨before, start, rfl, hpos, hline⟩ := ih
    rw [ofGlyphs_concat, hpos, enter]
    by_cases hg : g = .char '\n'
    · subst hg
      refine ⟨before ++ start ++ [.char '\n'], [], (append_nil _).symm, ?_, .inr ?_, hback, hends⟩
      · have hstart := count_eq_zero_of_not_mem fun hmem => hline.single (mem_append_left _ hmem)
        simp [Glyph.is, hstart]
        omega
      · simp
    · refine ⟨before, start ++ [g], append_assoc .., ?_, hline.starts, ?_, hends⟩
      · simp [Glyph.is, hg]
      · simpa [Ne.symm hg] using hline.single

theorem Pos.isIn_ofGlyphs (h : source.glyphs = front ++ back) : (ofGlyphs front).IsIn source := by
  obtain ⟨before, start, hfront, hpos, hline⟩ := exists_isLine front back
  refine ⟨before, _, _, ?_, hline, by rw [hpos], by rw [hpos]; exact Int.natCast_nonneg _, ?_⟩
  · rw [h, hfront, append_assoc, append_assoc, takeWhile_append_dropWhile]
  · rw [hpos, length_append]
    dsimp only
    omega

/-! ### Places of tokens -/

/-- The token is read from a piece of the source, and tells the place of its first glyph.  The end
of input has no text. -/
structure Token.LiesIn (source : Bytes) (t : Token) (before lexeme behind : List Glyph) : Prop where
  source_eq : source.glyphs = before ++ (lexeme ++ behind)
  pos_eq : t.pos = .ofGlyphs (before ++ lexeme.take 1)
  literal : t.kind ∉ [.string, .principal, .illegal] → t.literal = Bytes.ofGlyphs lexeme
  principal : t.kind = .principal →
    ∃ address, lexeme = .char '\x27' :: address ∧ t.literal = Bytes.ofGlyphs address
  string : t.kind = .string → ∃ quote ∈ Scanner.quotes, ∃ inner,
    lexeme = .char quote :: (inner ++ [.char quote]) ∧ Scanner.Encodes quote inner t.literal
  shift : t.kind = .shiftRight → lexeme = [.char '>', .char '>']

/-- The token is one of the source, or half of one. -/
def Token.IsPart (source : Bytes) (t : Token) : Prop :=
  ∃ before lexeme behind, t.LiesIn source before lexeme behind

namespace Token

variable {t : Token}

theorem ReadFrom.shift {text behind : List Glyph} (h : t.ReadFrom text behind)
    (hkind : t.kind = .shiftRight) : text = [.char '>', .char '>'] := by
  cases h with
  | symbol =>
    obtain rfl := hkind
    decide
  | word => exact absurd hkind (Scanner.ofWord_ne_shiftRight _)
  | decorator | int | float | string | principal | openString | openComment | stray => cases hkind

theorem exists_liesIn (h : t ∈ scan source) : t.IsPart source := by
  obtain ⟨s, hs, rfl⟩ := Scanner.exists_of_mem_tokensWithin (.ofBytes source) h
  by_cases hkind : s.next.1.kind = .eof
  · obtain ⟨passed, hsource, hpos⟩ := hs.next
    obtain ⟨-, hstays, last, -, -, hstop⟩ | ⟨_, _, -, -, hread⟩ := s.next_cases
    · rw [Scanner.next, Scanner.skipTrivia_of_isStop hstop] at hstays
      have htoken := Scanner.token_of_isStop hstop
      dsimp only at hstays
      rw [htoken] at hstays
      rw [← hstays]
      refine ⟨passed ++ s.next.2.rest.head?.toList, [], s.next.2.rest.tail, ?_, by simpa using hpos,
        fun _ => rfl, ?_, ?_, ?_⟩
      · rw [hsource]
        cases s.next.2.rest <;> simp
      all_goals rintro ⟨⟩
    · exact absurd hkind hread.kind_ne_eof
  · obtain ⟨n, gap, g, text, hpos, -, hn, -, -, hread⟩ := Scanner.next_starts hkind
    obtain ⟨passed, hsource, hplace⟩ := hs.iterate n
    rw [hn] at hsource hplace
    refine ⟨passed, g :: text, s.next.2.rest, hsource, hpos.trans hplace,
      hread.literal_eq, hread.principal_eq, hread.string_eq, hread.shift⟩

/-- The halves of a `>>` are parts of the source, as it is. -/
theorem IsPart.halves (h : t.IsPart source) (hkind : t.kind = .shiftRight) :
    t.left.IsPart source ∧ t.right.IsPart source := by
  obtain ⟨before, lexeme, behind, hlies⟩ := h
  have hsource := hlies.source_eq
  have hpos := hlies.pos_eq
  rw [hlies.shift hkind] at hsource hpos
  have hplace : t.right.pos = .ofGlyphs (before ++ [.char '>'] ++ take 1 [.char '>']) := by
    rw [right, take_of_length_le (by decide), Pos.ofGlyphs_concat, hpos]
    rfl
  refine ⟨⟨_, [.char '>'], .char '>' :: behind, hsource, hpos, fun _ => by rfl, ?_, ?_, ?_⟩,
    _, _, behind, by simpa using hsource, hplace, fun _ => by rfl, ?_, ?_, ?_⟩
  all_goals rintro ⟨⟩

/-- Outside strings and principals the literal is the lexeme; the quotes are not in it. -/
theorem LiesIn.length_literal (h : t.LiesIn source before lexeme behind)
    (hkind : t.kind ≠ .illegal) :
    t.literal.length + (if t.kind = .string then 2 else if t.kind = .principal then 1 else 0) ≤
      (Bytes.ofGlyphs lexeme).length := by
  by_cases hstring : t.kind = .string
  · obtain ⟨quote, hquote, inner, rfl, hinner⟩ := h.string hstring
    have hquotes : Scanner.quotes.all (fun q => (Glyph.char q).bytes.length = 1) = true := by decide
    have hone := of_decide_eq_true (all_eq_true.1 hquotes quote hquote)
    have hbody := hinner.length_le
    rw [if_pos hstring, Bytes.length_ofGlyphs_cons, hone, Bytes.ofGlyphs_append, length_append,
      Bytes.length_ofGlyphs_cons, hone]
    omega
  · by_cases hprincipal : t.kind = .principal
    · obtain ⟨address, rfl, hliteral⟩ := h.principal hprincipal
      have hquote : (Glyph.char '\x27').bytes.length = 1 := by decide
      rw [if_neg hstring, if_pos hprincipal, Bytes.length_ofGlyphs_cons, hquote, hliteral]
      omega
    · rw [if_neg hstring, if_neg hprincipal, h.literal (by simp [hstring, hprincipal, hkind])]
      exact Nat.le_refl _

/-- The place behind the literal is in the source when the lexeme is made of single bytes, on one
line. -/
theorem LiesIn.isIn_stop (h : t.LiesIn source before lexeme behind) (hkind : t.kind ≠ .illegal)
    (hsingle : ∀ g ∈ lexeme, g.bytes.length = 1 ∧ g ≠ .char '\n') : t.stop.IsIn source := by
  have hliteral := h.length_literal hkind
  rw [(Bytes.length_ofGlyphs_eq_iff lexeme).2 fun g hg => (hsingle g hg).1] at hliteral
  have hsource := h.source_eq
  have hpos := h.pos_eq
  obtain ⟨front, start, hbefore, hplace, hline⟩ := Pos.exists_isLine before (lexeme ++ behind)
  rw [takeWhile_append_of_pos (by simpa using fun g hg => (hsingle g hg).2)] at hline
  have hstop : t.stop.line = 1 + front.count (.char '\n') ∧ 0 ≤ t.stop.column ∧
      t.stop.column ≤ start.length + lexeme.length + 1 := by
    rw [stop, hpos]
    cases lexeme with
    | nil =>
      rw [take_nil, append_nil, hplace]
      dsimp only
      omega
    | cons g text =>
      have hg : g.is '\n' = false := by simpa [Glyph.is] using (hsingle g mem_cons_self).2
      rw [take_succ_cons, take_zero, Pos.ofGlyphs_concat, hplace, Pos.enter, hg,
        if_neg Bool.false_ne_true]
      rw [length_cons] at hliteral ⊢
      dsimp only
      omega
  refine ⟨front, _, _, ?_, hline, hstop.1, hstop.2.1, ?_⟩
  · have hcut := takeWhile_append_dropWhile (p := fun g => decide (g ≠ .char '\n'))
      (l := lexeme ++ behind)
    rw [takeWhile_append_of_pos (by simpa using fun g hg => (hsingle g hg).2)] at hcut
    rw [hsource, hbefore, append_assoc, append_assoc start, hcut]
  · rw [length_append, length_append]
    omega

end Token

/-! ### Places that are reported -/

/-- The fault is at a token, or it is that of a parser that expects another one behind a token. -/
def Fault.SitedAt (T : Token → Prop) (f : Fault) : Prop :=
  ∃ t, T t ∧ (f.pos = t.pos ∨ t.kind ≠ .illegal ∧ f.pos = t.stop ∧
    ∃ (want : TokenKind) (got : Bytes), f.cause = .expected want.readable got)

/-- The cursor has such tokens before it, and its fault is at one of them.  Without a fault it has
seen no illegal token. -/
structure Cursor.Within (T : Token → Prop) (c : Cursor) : Prop where
  cur : T c.cur
  peek : T c.peek
  rest : ∀ t ∈ c.rest, T t
  fault : ∀ f, c.fault = some f → f.SitedAt T
  legal : c.fault = none → c.cur.kind ≠ .illegal ∧ c.peek.kind ≠ .illegal

namespace Cursor.Within

variable {T : Token → Prop} {c : Cursor}

theorem headD (h : c.Within T) : T (c.rest.headD c.peek) := by
  cases hrest : c.rest with
  | nil => exact h.peek
  | cons t ts => exact h.rest t (hrest ▸ mem_cons_self)

theorem note (hcur : T c.cur) (hpeek : T c.peek) (hrest : ∀ t ∈ c.rest, T t)
    (hfault : ∀ f, c.fault = some f → f.SitedAt T) (ht : T t)
    (hlegal : c.fault = none → t.kind ≠ .illegal → c.cur.kind ≠ .illegal ∧ c.peek.kind ≠ .illegal) :
    (c.note t).Within T := by
  rw [Cursor.note]
  split
  · refine ⟨hcur, hpeek, hrest, fun f hf => ?_, fun hf => by cases hf⟩
    obtain rfl := Option.some.inj hf
    cases hc : c.fault with
    | none => exact ⟨t, ht, .inl (by rw [Option.getD_none, t.pos_illegalFault])⟩
    | some f => exact hfault f hc
  · next hk => exact ⟨hcur, hpeek, hrest, hfault, fun hf => hlegal hf hk⟩

theorem advance (h : c.Within T) : c.advance.Within T := by
  refine note h.peek h.headD (fun t ht => h.rest t (mem_of_mem_tail ht)) h.fault h.headD ?_
  exact fun hf hk => ⟨(h.legal hf).2, hk⟩

theorem splitShift (h : c.Within T) (hT : T c.peek.left ∧ T c.peek.right) :
    c.splitShift.Within T := by
  refine note h.cur hT.1 (forall_mem_cons.2 ⟨hT.2, h.rest⟩) h.fault h.headD ?_
  exact fun hf _ => ⟨(h.legal hf).1, TokenKind.noConfusion⟩

end Cursor.Within

/-- A run and itself: it reports places of the tokens that it runs on. -/
def Simulation.sited (T : Token → Prop)
    (hT : ∀ t, T t → t.kind = .shiftRight → T t.left ∧ T t.right) : Simulation where
  tokens t u := t = u ∧ T t
  cursors c d := c = d ∧ c.Within T
  faults f _ := f.SitedAt T
  isStuck := Function.const _ False
  strict := true
  like := ⟨fun h => by rw [h.1], fun h _ => by rw [h.1]⟩
  cur := by
    rintro c _ ⟨rfl, h⟩
    exact ⟨rfl, h.cur⟩
  sees := by
    rintro c _ ⟨rfl, h⟩
    refine ⟨?_, .refl _ _, rfl⟩
    cases hfault : c.fault with
    | none => exact .none
    | some f => exact .some (h.fault f hfault)
  peek := by
    rintro c _ - ⟨rfl, h⟩
    exact ⟨rfl, h.peek⟩
  advance := by
    rintro c _ - ⟨rfl, h⟩
    exact ⟨rfl, h.advance⟩
  splitShift := by
    rintro c _ hk ⟨rfl, h⟩
    exact ⟨rfl, h.splitShift (hT _ h.peek hk)⟩
  faultAt h _ := ⟨_, h.2, .inl rfl⟩
  faultBehind := by
    rintro c _ ⟨rfl, h⟩ want
    cases hfault : c.fault with
    | none => exact ⟨_, h.cur, .inr ⟨(h.legal hfault).1, rfl, want, _, rfl⟩⟩
    | some f => exact h.fault f hfault
  lax := False.elim
  stuck_cur := False.elim
  stuck_fault := False.elim
  stuck_peek := False.elim
  stuck_advance := False.elim

theorem Cursor.within_ofTokens (source : Bytes) :
    (Cursor.ofTokens (Token.scan source)).Within (Token.IsPart source) := by
  have hparts : ∀ t ∈ Token.scan source, t.IsPart source := fun t => Token.exists_liesIn
  obtain ⟨ts, e, hscan, -⟩ := Token.scan_eq source
  obtain ⟨t, rest, hcons⟩ : ∃ t rest, Token.scan source = t :: rest :=
    exists_cons_of_ne_nil (by simp [hscan])
  rw [hcons] at hparts ⊢
  obtain ⟨ht, hrest⟩ := forall_mem_cons.1 hparts
  have hfirst : ((Cursor.mk t t rest none).note t).Within (Token.IsPart source) :=
    .note ht ht hrest (fun _ hf => by cases hf) ht fun _ hk => ⟨hk, hk⟩
  cases rest with
  | nil => exact hfirst
  | cons u rest =>
    have hstart : Cursor.ofTokens (t :: u :: rest) =
        ((Cursor.mk t t (u :: rest) none).note t).advance := by
      by_cases ht : t.kind = .illegal <;> simp [Cursor.ofTokens, Cursor.advance, Cursor.note, ht]
    rw [hstart]
    exact hfirst.advance

/-- A fault is at a token of the source, or behind one. -/
theorem Tree.sitedAt_of_parse (h : Tree.parse source = .error f) :
    f.SitedAt (Token.IsPart source) := by
  have hrun := (Grammar.Like.statements (S := .sited _ fun t => Token.IsPart.halves) rfl
    (.ofDepth (.refl _ ((Cursor.ofTokens (Token.scan source)).bound + 1)))
    (Cursor.ofTokens (Token.scan source)).bound ⟨rfl, Cursor.within_ofTokens source⟩).2
  rw [parse, Parsed.ofSource, Parsed.ofTokens] at h
  dsimp only at h
  generalize (Grammar.statements _ _ _).2 = fault at h hrun
  cases hrun with
  | none => cases h
  | some hf =>
    cases h
    exact hf

end Covenant
