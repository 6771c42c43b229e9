import Covenant.Proofs.Token.Reading
import Mathlib.Data.List.Chain
import Mathlib.Data.List.DropRight

/-!
# Tokens with gaps between them

A source can be laid out in many ways: before each word there may be blanks and comments.  What is
scanned does not depend on them, but for one thing: two `>` without a gap between them are one
token.  So a run of them is grouped in pairs from its start, and whether its last one is left over
depends on how many they are.
-/

namespace Covenant

open List
open Glyph (is)

namespace Scanner

/-! ### Passing gaps -/

variable {gap rest : List Glyph}

theorem skip_line (h : IsLineBody body) (rest : List Glyph) (pos : Pos) :
    ∃ pos', skip .line (body ++ .char '\n' :: rest) pos = skip .blank rest pos' := by
  induction body generalizing pos with
  | nil => exact ⟨_, by rw [nil_append, skip]; rfl⟩
  | cons g body ih =>
    obtain ⟨hend, hnul⟩ := h
    obtain ⟨hg, hend⟩ := ne_and_not_mem_of_not_mem_cons hend
    obtain ⟨hg', hnul⟩ := ne_and_not_mem_of_not_mem_cons hnul
    obtain ⟨pos', hskip⟩ := ih ⟨hend, hnul⟩ (pos.enter (body ++ .char '\n' :: rest).head?)
    refine ⟨pos', ?_⟩
    rw [cons_append, skip, if_neg (by simpa [is] using hg.symm),
      if_neg (by simpa [is] using hg'.symm), hskip]

theorem skip_block (h : IsBlockBody body) (start : Pos) (rest : List Glyph) (pos : Pos) :
    ∃ pos', skip (.block start) (body ++ .char '*' :: .char '/' :: rest) pos =
      skip .blank rest pos' := by
  induction body generalizing pos with
  | nil => exact ⟨_, by rw [nil_append, skip]⟩
  | cons g body ih =>
    obtain ⟨hclose, hnul⟩ := h
    obtain ⟨hg, hnul⟩ := ne_and_not_mem_of_not_mem_cons hnul
    have hbody : IsBlockBody body :=
      ⟨fun hin => hclose (hin.trans (suffix_cons g body).isInfix), hnul⟩
    obtain ⟨pos', hskip⟩ := ih hbody (pos.enter (body ++ .char '*' :: .char '/' :: rest).head?)
    refine ⟨pos', ?_⟩
    rw [cons_append, skip]
    · rw [if_neg (by simpa [is] using hg.symm), hskip]
    · rintro more rfl hmore
      cases body with
      | nil => cases hmore
      | cons g body =>
        obtain ⟨rfl, -⟩ := List.cons.inj hmore
        exact hclose ⟨[], body, rfl⟩

theorem skip_gap (h : IsGap gap) (rest : List Glyph) (pos : Pos) :
    ∃ pos', skip .blank (gap ++ rest) pos = skip .blank rest pos' := by
  induction h generalizing pos with
  | nil => exact ⟨pos, rfl⟩
  | @blank g gs hg _ ih =>
    obtain ⟨pos', hskip⟩ := ih (pos.enter (gs ++ rest).head?)
    refine ⟨pos', ?_⟩
    rw [cons_append, ← hskip, skip, if_pos (isBlank_iff.2 hg)]
    all_goals
      rintro more rfl
      exact absurd hg (by decide)
  | @line body gs hbody _ ih =>
    obtain ⟨pos₁, hline⟩ := skip_line hbody (gs ++ rest)
      ((pos.enter (some (.char '/'))).enter (body ++ .char '\n' :: (gs ++ rest)).head?)
    obtain ⟨pos', hskip⟩ := ih pos₁
    refine ⟨pos', ?_⟩
    rw [← hskip, ← hline]
    simp [skip]
  | @block body gs hbody _ ih =>
    obtain ⟨pos₁, hblock⟩ := skip_block hbody pos (gs ++ rest)
      ((pos.enter (some (.char '*'))).enter (body ++ .char '*' :: .char '/' :: (gs ++ rest)).head?)
    obtain ⟨pos', hskip⟩ := ih pos₁
    refine ⟨pos', ?_⟩
    rw [← hskip, ← hblock]
    simp [skip]

theorem next_gap (h : IsGap gap) (rest : List Glyph) (pos : Pos) :
    ∃ pos', (⟨gap ++ rest, pos⟩ : Scanner).next = (⟨rest, pos'⟩ : Scanner).next := by
  obtain ⟨pos', hskip⟩ := skip_gap h rest pos
  refine ⟨pos', ?_⟩
  rw [next, next, skipTrivia, skipTrivia, hskip]

/-! ### Words and marks -/

theorem next_decorator (hw : isWord w = true) (hrest : Avoids isNamePart rest) (pos : Pos) :
    ∃ pos', (⟨.char '@' :: w.glyphs ++ rest, pos⟩ : Scanner).next =
      (⟨.decorator, "@" ++ w, pos⟩, ⟨rest, pos'⟩) := by
  obtain ⟨c, gs, hglyphs, hstart, -, hall⟩ := isWord_cases hw
  obtain ⟨pos', hspan⟩ := hrest.span_eq hall (pos.enter (w.glyphs ++ rest).head?)
  refine ⟨pos', ?_⟩
  have hadvance : (⟨.char '@' :: w.glyphs ++ rest, pos⟩ : Scanner).advance =
      ⟨w.glyphs ++ rest, pos.enter (w.glyphs ++ rest).head?⟩ := rfl
  have hslash : Glyph.char '@' = .char '/' → isSetOff (w.glyphs ++ rest) :=
    fun h => absurd (Glyph.char.inj h) (by decide)
  rw [next, cons_append, skipTrivia_of_token (by decide) hslash, ← cons_append]
  simp only [token, hadvance, hspan, Bytes.ofGlyphs_glyphs]
  simp [is, Glyph.rune, symbol, hglyphs, hstart]

theorem next_symbol_before (hc : c ∉ ['\x00', '/'])
    (hblank : isBlank (.char c) = false) (h : symbol c rest.head? = some (k, false)) (pos : Pos) :
    ∃ pos', (⟨.char c :: rest, pos⟩ : Scanner).next = (⟨k, k.name, pos⟩, ⟨rest, pos'⟩) := by
  simp only [mem_cons, not_mem_nil, or_false, not_or] at hc
  rw [next, skipTrivia_of_token hblank fun h => absurd (Glyph.char.inj h) hc.2]
  simp only [token, is, beq_iff_eq, Glyph.char.injEq, hc.1, if_false, Glyph.rune, h]
  exact ⟨_, rfl⟩

end Scanner

def TokenKind.isMark (k : TokenKind) : Bool :=
  [less, greater, assign, comma, semicolon, colon, lbrace, rbrace, lparen, rparen].contains k

namespace Token

open Scanner (Avoids isNamePart isWord)

/-- The token is a word or a mark, with the text that belongs to it. -/
def isPlain (t : Token) : Bool :=
  if t.kind.isMark then t.literal == t.kind.name
  else isWord t.literal && TokenKind.ofWord t.literal == t.kind

/-- The glyph right behind the token would be read as a part of it. -/
def runsOn (t : Token) (g : Glyph) : Bool :=
  match t.kind with
  | .less => g.is '<' || g.is '='
  | .greater | .assign => g.is '>' || g.is '='
  | k => !k.isMark && k != .shiftRight && isNamePart g

theorem next_mark {t : Token} (hk : t.kind.isMark = true) (ht : t.literal = t.kind.name)
    (hrest : Avoids t.runsOn rest) (pos : Pos) :
    ∃ pos', (⟨t.literal.glyphs ++ rest, pos⟩ : Scanner).next =
      (⟨t.kind, t.literal, pos⟩, ⟨rest, pos'⟩) := by
  obtain ⟨k, literal, p⟩ := t
  dsimp only at ht hk
  subst ht
  -- a glyph that runs on does not follow
  have hne {c : Char} (hc : runsOn ⟨k, k.name, p⟩ (.char c) = true) :
      (rest.head? == some (.char c)) = false := by
    rw [beq_eq_false_iff_ne]
    intro hhead
    rw [hrest _ hhead] at hc
    cases hc
  have hread (c : Char) (hsymbol : Scanner.symbol c rest.head? = some (k, false))
      (hglyphs : (Bytes.ofString k.name).glyphs = [.char c] := by decide)
      (hc : c ∉ ['\x00', '/'] := by decide)
      (hblank : Scanner.isBlank (.char c) = false := by decide) :
      ∃ pos', (⟨(Bytes.ofString k.name).glyphs ++ rest, pos⟩ : Scanner).next =
        (⟨k, k.name, pos⟩, ⟨rest, pos'⟩) := by
    rw [hglyphs]
    exact Scanner.next_symbol_before hc hblank hsymbol pos
  simp only [TokenKind.isMark, contains_iff_mem, mem_cons, not_mem_nil, or_false] at hk
  obtain rfl | rfl | rfl | rfl | rfl | rfl | rfl | rfl | rfl | rfl := hk
  · exact hread '<'
      (by simp only [Scanner.symbol, hne (c := '<') rfl, hne (c := '=') rfl]; rfl)
  · exact hread '>'
      (by simp only [Scanner.symbol, hne (c := '>') rfl, hne (c := '=') rfl]; rfl)
  · exact hread '='
      (by simp only [Scanner.symbol, hne (c := '>') rfl, hne (c := '=') rfl]; rfl)
  · exact hread ',' rfl
  · exact hread ';' rfl
  · exact hread ':' rfl
  · exact hread '\x7b' rfl
  · exact hread '\x7d' rfl
  · exact hread '(' rfl
  · exact hread ')' rfl

theorem next_plain {t : Token} (ht : t.isPlain = true) (hrest : Avoids t.runsOn rest) (pos : Pos) :
    ∃ pos', (⟨t.literal.glyphs ++ rest, pos⟩ : Scanner).next =
      (⟨t.kind, t.literal, pos⟩, ⟨rest, pos'⟩) := by
  unfold isPlain at ht
  split at ht
  · next hk => exact next_mark hk (eq_of_beq ht) hrest pos
  · next hk =>
    obtain ⟨hword, hkind⟩ := Bool.and_eq_true_iff.1 ht
    have hkind := eq_of_beq hkind
    rw [← hkind]
    refine Scanner.next_word hword (fun g hg => ?_) pos
    have hg := hrest g hg
    unfold runsOn at hg
    rw [← hkind] at hg hk
    split at hg
    · next h => exact absurd (by rw [h]; rfl) hk
    · next h => exact absurd (by rw [h]; rfl) hk
    · next h => exact absurd (by rw [h]; rfl) hk
    · have hshift := Scanner.ofWord_ne_shiftRight t.literal
      simpa [hk, hshift] using hg

theorem runsOn_eq_false (t : Token) (hc : c ∈ [' ', '\t', '\r', '\n', '/', ';']) :
    t.runsOn (.char c) = false := by
  have hall : isNamePart (.char c) = false ∧ is (.char c) '<' = false ∧
      is (.char c) '>' = false ∧ is (.char c) '=' = false := by
    simp only [mem_cons, not_mem_nil, or_false] at hc
    obtain rfl | rfl | rfl | rfl | rfl | rfl := hc <;> decide
  obtain ⟨hname, hless, hgreater, heq⟩ := hall
  unfold runsOn
  split <;> simp only [hname, hless, hgreater, heq, Bool.or_self, Bool.and_false]

theorem runsOn_of_gap (t : Token) {gap : List Glyph} (hgap : Scanner.IsGap gap) (hne : gap ≠ [])
    (rest : List Glyph) : Avoids t.runsOn (gap ++ rest) := by
  rintro g hg
  cases hgap with
  | nil => exact absurd rfl hne
  | blank hblank _ =>
    cases hg
    simp only [mem_cons, not_mem_nil, or_false] at hblank
    obtain rfl | rfl | rfl | rfl := hblank <;> exact t.runsOn_eq_false (by decide)
  | line _ _ | block _ _ =>
    cases hg
    exact t.runsOn_eq_false (by decide)

end Token

/-! ### Runs of the scanner -/

namespace Scanner

/-- The scanner reads the tokens one after the other. -/
inductive Steps : Scanner → List Token → Scanner → Prop
  | nil (s : Scanner) : Steps s [] s
  | cons {s : Scanner} (hs : s.next.1.kind ≠ .eof) (h : Steps s.next.2 ts s') :
    Steps s (s.next.1 :: ts) s'

variable {s s' : Scanner}

theorem Steps.trans (h : Steps s ts s') (h' : Steps s' us s'') : Steps s (ts ++ us) s'' := by
  induction h with
  | nil s => exact h'
  | cons hs _ ih => exact .cons hs (ih h')

theorem tokens_of_next (h : s.next.1.kind ≠ .eof) : s.tokens = s.next.1 :: s.next.2.tokens := by
  have hfuel {m n : Nat} {s : Scanner} (hm : s.rest.length < m) (hn : s.rest.length < n) :
      tokensWithin m s = tokensWithin n s := by
    induction m generalizing n s with
    | zero => cases hm
    | succ m ih =>
      cases n with
      | zero => cases hn
      | succ n =>
        rw [tokensWithin, tokensWithin]
        dsimp only
        split
        · rfl
        · next heof =>
          have hlt := length_next_lt heof
          rw [ih (Nat.lt_of_lt_of_le hlt (Nat.le_of_lt_succ hm))
            (Nat.lt_of_lt_of_le hlt (Nat.le_of_lt_succ hn))]
  rw [tokens, tokensWithin]
  dsimp only
  rw [if_neg h, tokens, hfuel (length_next_lt h) (Nat.lt_succ_self _)]

theorem Steps.tokens_eq (h : Steps s ts s') : s.tokens = ts ++ s'.tokens := by
  induction h with
  | nil s => rfl
  | cons hs _ ih => rw [tokens_of_next hs, ih, cons_append]

theorem Steps.after_eq (h : Steps s ts s') : s.after ts.length = s' := by
  induction h with
  | nil s => rfl
  | cons _ _ ih => exact ih

/-- Wherever the scanner stands before the glyphs `gs`, it reads the tokens `vs`, up to their
places, and is left before `more`. -/
def Gives (gs : List Glyph) (vs : List Token) (more : List Glyph) : Prop :=
  ∀ pos, ∃ ts s', Steps ⟨gs, pos⟩ ts s' ∧ s'.rest = more ∧ Forall₂ Token.SameText ts vs

namespace Gives

theorem nil (gs : List Glyph) : Gives gs [] gs :=
  fun pos => ⟨[], ⟨gs, pos⟩, .nil _, rfl, .nil⟩

theorem trans (h : Gives gs vs mid) (h' : Gives mid us more) : Gives gs (vs ++ us) more := by
  intro pos
  obtain ⟨ts, ⟨_, pos'⟩, hts, rfl, hvs⟩ := h pos
  obtain ⟨ts', s', hts', hmore, hus⟩ := h' pos'
  exact ⟨ts ++ ts', s', hts.trans hts', hmore, rel_append hvs hus⟩

theorem one {v : Token} (hv : v.kind ≠ .eof) (h : ∀ pos, ∃ pos' pos'',
      (⟨gs, pos⟩ : Scanner).next = (⟨v.kind, v.literal, pos'⟩, ⟨more, pos''⟩)) :
    Gives gs [v] more := by
  intro pos
  obtain ⟨pos', pos'', hnext⟩ := h pos
  have hsteps : Steps ⟨gs, pos⟩ [(⟨gs, pos⟩ : Scanner).next.1] (⟨gs, pos⟩ : Scanner).next.2 :=
    .cons (by rw [hnext]; exact hv) (.nil _)
  rw [hnext] at hsteps
  exact ⟨_, _, hsteps, rfl, .cons ⟨rfl, rfl⟩ .nil⟩

theorem plain (hgap : IsGap gap) {v : Token} (hv : v.isPlain = true)
    (hmore : Avoids v.runsOn more) : Gives (gap ++ (v.literal.glyphs ++ more)) [v] more := by
  refine one ?_ fun pos => ?_
  · intro heof
    unfold Token.isPlain at hv
    rw [heof] at hv
    obtain ⟨-, hword⟩ := Bool.and_eq_true_iff.1 hv
    exact absurd (eq_of_beq hword) (ofWord_ne_eof _)
  · obtain ⟨pos₁, hgap⟩ := next_gap hgap (v.literal.glyphs ++ more) pos
    obtain ⟨pos₂, hnext⟩ := Token.next_plain hv hmore pos₁
    exact ⟨pos₁, pos₂, hgap.trans hnext⟩

theorem semicolon : Gives [.char ';'] [.symbol .semicolon] [] :=
  plain IsGap.nil (v := .symbol .semicolon) rfl nofun

theorem rest_after (h : Gives gs vs more) (pos : Pos) :
    ((⟨gs, pos⟩ : Scanner).after vs.length).rest = more := by
  obtain ⟨ts, s', hsteps, hrest, hts⟩ := h pos
  rw [← hts.length_eq, hsteps.after_eq, hrest]

theorem scan_eq {source : Bytes} (h : Gives source.glyphs vs []) :
    ∃ ts pos, Token.scan source = ts ++ [⟨.eof, [], pos⟩] ∧ Forall₂ Token.SameText ts vs := by
  obtain ⟨ts, ⟨_, pos⟩, hsteps, rfl, hts⟩ := h (Pos.enter ⟨1, 0⟩ source.glyphs.head?)
  exact ⟨ts, pos, hsteps.tokens_eq, hts⟩

theorem shift (hgap : IsGap gap) (more : List Glyph) :
    Gives (gap ++ .char '>' :: .char '>' :: more) [Token.symbol .shiftRight] more := by
  refine one (by decide) fun pos => ?_
  obtain ⟨pos₁, hgap⟩ := next_gap hgap (.char '>' :: .char '>' :: more) pos
  exact ⟨pos₁, _, hgap⟩

end Gives

end Scanner

/-! ### Words behind gaps -/

/-- A word of a source, and the gap before it. -/
structure Spaced where
  gap : List Glyph
  word : Token

namespace Spaced

open Scanner (Avoids IsGap Gives)

def glyphs (p : Spaced) : List Glyph :=
  p.gap ++ p.word.literal.glyphs

def write (ps : List Spaced) : List Glyph :=
  ps.flatMap glyphs

/-- The last token is a `>`, and so it makes a shift with a further one right behind it. -/
def isLeftOver (ts : List Token) : Bool :=
  ts.getLast?.any (·.kind == .greater)

def push (ts : List Token) (p : Spaced) : List Token :=
  if p.word.kind = .greater ∧ p.gap = [] ∧ isLeftOver ts then
    ts.dropLast ++ [.symbol .shiftRight]
  else ts ++ [p.word]

def tokens (ps : List Spaced) : List Token :=
  ps.foldl push []

theorem tokens_concat (ps : List Spaced) (p : Spaced) : tokens (ps ++ [p]) = push (tokens ps) p :=
  foldl_concat ..

/-- The first word does not run on into the second one, unless they make a shift. -/
def Apart (p q : Spaced) : Prop :=
  q.gap = [] → p.word.kind = .greater ∧ q.word.kind = .greater ∨
    Avoids p.word.runsOn q.word.literal.glyphs

/-- Words that are laid out so that they can be told apart. -/
structure AreApart (ps : List Spaced) : Prop where
  gap : ∀ p ∈ ps, IsGap p.gap
  word : ∀ p ∈ ps, p.word.isPlain = true
  apart : ps.IsChain Apart

variable {p : Spaced} {ps : List Spaced} {t : Token}

theorem getLast?_tokens (h : (tokens (ps ++ [p])).getLast? = some v) :
    v = p.word ∨ v = .symbol .shiftRight := by
  rw [tokens_concat, push] at h
  split at h
  · rw [getLast?_concat] at h
    exact .inr (Option.some.inj h).symm
  · rw [getLast?_concat] at h
    exact .inl (Option.some.inj h).symm

theorem isLeftOver_concat (ts : List Token) (t : Token) :
    isLeftOver (ts ++ [t]) = (t.kind == .greater) := by
  rw [isLeftOver, getLast?_concat]
  rfl

theorem exists_of_isLeftOver (h : isLeftOver ts = true) :
    ∃ vs v, ts = vs ++ [v] ∧ v.kind = .greater := by
  obtain rfl | ⟨vs, v, rfl⟩ := ts.eq_nil_or_concat'
  · cases h
  · rw [isLeftOver_concat] at h
    exact ⟨vs, v, rfl, eq_of_beq h⟩

/-- What is scanned of the words when `more` follows: all their tokens, unless the last one runs on,
and all but the last `>` in any case. -/
structure AreScanned (ps : List Spaced) (more : List Glyph) : Prop where
  all : (∀ v ∈ (tokens ps).getLast?, Avoids v.runsOn more) →
    Gives (write ps ++ more) (tokens ps) more
  butLast : ∀ vs v, tokens ps = vs ++ [v] → v.kind = .greater →
    ∃ gap, IsGap gap ∧ Gives (write ps ++ more) vs (gap ++ .char '>' :: more)

theorem glyphs_of_greater (ht : t.isPlain = true) (hk : t.kind = .greater) :
    t.literal.glyphs = [.char '>'] := by
  rw [Token.isPlain, hk] at ht
  rw [eq_of_beq ht]
  decide

theorem glyphs_ne_nil (ht : t.isPlain = true) : t.literal.glyphs ≠ [] := by
  unfold Token.isPlain at ht
  split at ht
  · next hk =>
    have hall : ∀ k ∈ [TokenKind.less, .greater, .assign, .comma, .semicolon, .colon, .lbrace,
        .rbrace, .lparen, .rparen], (Bytes.ofString k.name).glyphs ≠ [] := by decide
    rw [eq_of_beq ht]
    exact hall _ (contains_iff_mem.1 hk)
  · obtain ⟨c, gs, hglyphs, -⟩ := Scanner.isWord_cases (Bool.and_eq_true_iff.1 ht).1
    rw [hglyphs]
    exact cons_ne_nil _ _

theorem AreApart.of_concat (h : AreApart (ps ++ [p])) :
    AreApart ps ∧ IsGap p.gap ∧ p.word.isPlain = true ∧ ∀ q ∈ ps.getLast?, Apart q p := by
  obtain ⟨hchain, -, hlast⟩ := isChain_append.1 h.apart
  have hp : p ∈ ps ++ [p] := mem_append_right _ mem_cons_self
  exact ⟨⟨fun q hq => h.gap q (mem_append_left _ hq),
    fun q hq => h.word q (mem_append_left _ hq), hchain⟩, h.gap p hp, h.word p hp,
    fun q hq => hlast q hq p rfl⟩

theorem AreApart.avoids (h : AreApart (ps ++ [p]))
    (hp : ¬(p.word.kind = .greater ∧ p.gap = [] ∧ isLeftOver (tokens ps))) (more : List Glyph) :
    ∀ v ∈ (tokens ps).getLast?, Avoids v.runsOn (p.glyphs ++ more) := by
  obtain ⟨-, hgap, hword, hapart⟩ := h.of_concat
  intro v hv
  rw [glyphs, append_assoc]
  by_cases hnil : p.gap = []
  · obtain rfl | ⟨ps, q, rfl⟩ := ps.eq_nil_or_concat'
    · cases hv
    obtain rfl | rfl := getLast?_tokens hv
    · rw [hnil, nil_append]
      obtain ⟨hq, hk⟩ | havoids := hapart q getLast?_concat hnil
      · refine absurd ⟨hk, hnil, ?_⟩ hp
        rw [isLeftOver, hv]
        simpa using hq
      · intro g hg
        rw [head?_append_of_ne_nil _ (glyphs_ne_nil hword)] at hg
        exact havoids g hg
    · intro g hg
      rfl
  · exact v.runsOn_of_gap hgap hnil _

theorem areScanned (h : AreApart ps) (more : List Glyph) : AreScanned ps more := by
  induction ps using reverseRecOn generalizing more with
  | nil => exact ⟨fun _ => .nil more, fun vs v hv => absurd hv (by simp [tokens])⟩
  | append_singleton ps p ih =>
    obtain ⟨hps, hgap, hword, -⟩ := h.of_concat
    have hwrite : write (ps ++ [p]) ++ more = write ps ++ (p.glyphs ++ more) := by simp [write]
    by_cases hp : p.word.kind = .greater ∧ p.gap = [] ∧ isLeftOver (tokens ps)
    · -- the last `>` and this one are a shift
      have hpush : tokens (ps ++ [p]) = (tokens ps).dropLast ++ [.symbol .shiftRight] := by
        rw [tokens_concat, push, if_pos hp]
      obtain ⟨hk, hnil, hleft⟩ := hp
      obtain ⟨vs, v, hvs, hv⟩ := exists_of_isLeftOver hleft
      rw [hvs, dropLast_concat] at hpush
      refine ⟨fun _ => ?_, fun us u hus hu => ?_⟩
      · obtain ⟨gap, hgap, hgives⟩ := (ih hps (.char '>' :: more)).butLast vs v hvs hv
        rw [hwrite, glyphs, hnil, glyphs_of_greater hword hk, hpush]
        exact hgives.trans (.shift hgap more)
      · rw [hpush] at hus
        obtain ⟨-, hlast⟩ := append_inj' hus rfl
        rw [← singleton_inj.1 hlast] at hu
        cases hu
    · have hpush : tokens (ps ++ [p]) = tokens ps ++ [p.word] := by
        rw [tokens_concat, push, if_neg hp]
      have hgives := (ih hps (p.glyphs ++ more)).all (h.avoids hp more)
      refine ⟨fun hmore => ?_, fun us u hus hu => ⟨p.gap, hgap, ?_⟩⟩
      · rw [hpush] at hmore ⊢
        rw [hwrite]
        refine hgives.trans ?_
        rw [glyphs, append_assoc]
        exact .plain hgap hword (hmore _ getLast?_concat)
      · rw [hpush] at hus
        obtain ⟨rfl, hlast⟩ := append_inj' hus rfl
        rw [← singleton_inj.1 hlast] at hu
        rw [hwrite]
        rw [glyphs, append_assoc, glyphs_of_greater hword hu] at hgives
        rw [glyphs, append_assoc, glyphs_of_greater hword hu]
        exact hgives

/-! ### Runs of closers -/

def closers (gs : List Glyph) : Nat :=
  (gs.rtakeWhile (·.is '>')).length

theorem closers_concat_greater (gs : List Glyph) :
    closers (gs ++ [.char '>']) = closers gs + 1 := by
  rw [closers, rtakeWhile_concat_pos _ _ _ (by rfl), length_append]
  rfl

theorem closers_append {gs hs : List Glyph} (hg : hs.getLast? = some g)
    (hne : g.is '>' = false) : closers (gs ++ hs) = 0 := by
  obtain ⟨hs, rfl⟩ := getLast?_eq_some_iff.1 hg
  rw [closers, ← append_assoc, rtakeWhile_concat_neg _ _ _ (by simp [hne])]
  rfl

theorem getLast?_gap {gap : List Glyph} (h : IsGap gap) : ∀ g ∈ gap.getLast?, g.is '>' = false := by
  have hlast {g : Glyph} {gs : List Glyph} (hg : g.is '>' = false)
      (hgs : ∀ g ∈ gs.getLast?, g.is '>' = false) :
      ∀ g' ∈ (g :: gs).getLast?, g'.is '>' = false := by
    rw [getLast?_cons]
    rintro _ ⟨⟩
    cases h : gs.getLast? with
    | none => exact hg
    | some g' => exact hgs g' h
  induction h with
  | nil => exact nofun
  | @blank g gs hg _ ih =>
    have hall : ∀ g ∈ [.char ' ', .char '\t', .char '\r', .char '\n'], is g '>' = false := by decide
    exact hlast (hall g hg) ih
  | @line body gs _ _ ih =>
    rw [cons_append, cons_append, ← cons_append, ← cons_append,
      getLast?_append_of_ne_nil _ (cons_ne_nil _ _)]
    exact hlast (by rfl) ih
  | @block body gs _ _ ih =>
    rw [cons_append, cons_append, ← cons_append, ← cons_append,
      getLast?_append_of_ne_nil _ (cons_ne_nil _ _)]
    exact hlast (by rfl) (hlast (by rfl) ih)

theorem getLast?_plain (ht : t.isPlain = true) (hk : t.kind ≠ .greater) :
    ∃ g, t.literal.glyphs.getLast? = some g ∧ g.is '>' = false := by
  unfold Token.isPlain at ht
  split at ht
  · next hmark =>
    have hall : ∀ k ∈ [TokenKind.less, .greater, .assign, .comma, .semicolon, .colon, .lbrace,
        .rbrace, .lparen, .rparen], k = .greater ∨
          (Bytes.ofString k.name).glyphs.getLast?.map (·.is '>') = some false := by decide
    rw [eq_of_beq ht]
    exact Option.map_eq_some_iff.1 ((hall _ (contains_iff_mem.1 hmark)).resolve_left hk)
  · obtain ⟨c, gs, hglyphs, -, -, hall⟩ := Scanner.isWord_cases (Bool.and_eq_true_iff.1 ht).1
    have hne : t.literal.glyphs ≠ [] := by
      rw [hglyphs]
      exact cons_ne_nil _ _
    refine ⟨_, getLast?_eq_getLast_of_ne_nil hne, ?_⟩
    have hpart := hall _ (getLast_mem hne)
    rw [is, beq_eq_false_iff_ne]
    intro heq
    rw [heq] at hpart
    revert hpart
    decide

/-- A `>` is left over when there is an odd number of them at the end. -/
theorem isLeftOver_iff (h : AreApart ps) :
    isLeftOver (tokens ps) = true ↔ closers (write ps) % 2 = 1 := by
  induction ps using reverseRecOn with
  | nil => exact iff_of_false (by decide) (by decide)
  | append_singleton ps p ih =>
    obtain ⟨hps, hgap, hword, -⟩ := h.of_concat
    have hwrite : write (ps ++ [p]) = write ps ++ p.gap ++ p.word.literal.glyphs := by
      simp [write, glyphs]
    rw [hwrite, tokens_concat, push]
    by_cases hk : p.word.kind = .greater
    · rw [glyphs_of_greater hword hk, closers_concat_greater]
      by_cases hnil : p.gap = []
      · rw [hnil, append_nil]
        by_cases hleft : isLeftOver (tokens ps) = true
        · have hodd := (ih hps).1 hleft
          rw [if_pos ⟨hk, rfl, hleft⟩, isLeftOver_concat]
          exact iff_of_false (by decide) (by omega)
        · have heven := mt (ih hps).2 hleft
          rw [if_neg fun hp => hleft hp.2.2, isLeftOver_concat, hk]
          exact iff_of_true rfl (by omega)
      · rw [if_neg fun hp => hnil hp.2.1, isLeftOver_concat, hk]
        obtain ⟨gap, g, heq⟩ := (eq_nil_or_concat' p.gap).resolve_left hnil
        have hlast : p.gap.getLast? = some g := by rw [heq, getLast?_concat]
        rw [closers_append hlast (getLast?_gap hgap g hlast)]
        exact iff_of_true rfl rfl
    · obtain ⟨g, hlast, hg⟩ := getLast?_plain hword hk
      rw [if_neg fun hp => hk hp.1, isLeftOver_concat, closers_append hlast hg]
      exact iff_of_false (by simpa using hk) (by decide)

end Spaced

end Covenant
