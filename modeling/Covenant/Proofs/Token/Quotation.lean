import Covenant.Proofs.Token.Position
import Covenant.Proofs.Token.Spaced

/-!
# The text between quotes

The text of a string falls into pieces from left to right: a backslash and the glyph behind it, or
a glyph alone.  Only a glyph that stands alone can end a string, and so the first of them that is
the quote, a line feed or a NUL character decides whether there is a string at all.
-/

namespace Covenant

open List

/-! ### Pieces -/

/-- A unit of the text between quotes. -/
inductive StringPiece where
  /-- A glyph that stands alone. -/
  | plain (g : Glyph)
  /-- A backslash and the glyph behind it. -/
  | pair (g : Glyph)
  deriving DecidableEq, Repr

namespace StringPiece

def glyphs : StringPiece → List Glyph
  | plain g => [g]
  | pair g => [.char '\x5c', g]

/-- The pieces of a text from left to right.  A backslash at its very end stands alone. -/
def split : List Glyph → List StringPiece
  | [] => []
  | [g] => [plain g]
  | g :: e :: rest =>
    if g = .char '\x5c' then pair e :: split rest else plain g :: split (e :: rest)

def ends (quote : Char) : StringPiece → Bool
  | plain g => g.is quote || g.is '\x00' || g.is '\n'
  | pair _ => false

def taken : StringPiece → Bytes
  | plain g => g.bytes
  | pair g => Scanner.escaped g

theorem split_cons (hg : g ≠ .char '\x5c') (gs : List Glyph) :
    split (g :: gs) = plain g :: split gs := by
  cases gs with
  | nil => rfl
  | cons e gs => rw [split, if_neg hg]

theorem split_pair (e : Glyph) (gs : List Glyph) :
    split (.char '\x5c' :: e :: gs) = pair e :: split gs := by
  rw [split, if_pos rfl]

theorem flatMap_glyphs_split (gs : List Glyph) : (split gs).flatMap glyphs = gs := by
  fun_induction split gs with
  | case1 | case2 g => rfl
  | case3 e rest ih | case4 g e rest hg ih => rw [flatMap_cons, ih]; rfl

theorem split_append (h : plain (.char '\x5c') ∉ split gs) (hs : List Glyph) :
    split (gs ++ hs) = split gs ++ split hs := by
  fun_induction split gs with
  | case1 => rfl
  | case2 g =>
    have hg : g ≠ .char '\x5c' := by
      rintro rfl
      exact h (.head _)
    exact split_cons hg hs
  | case3 e rest ih =>
    rw [cons_append, cons_append, split_pair, ih (mt (mem_cons_of_mem _) h)]
    rfl
  | case4 g e rest hg ih =>
    rw [cons_append, split_cons hg, ih (mt (mem_cons_of_mem _) h)]
    rfl

theorem mem_iff (hg : g ≠ .char '\x5c') : g ∈ gs ↔ plain g ∈ split gs ∨ pair g ∈ split gs := by
  conv_lhs => rw [← flatMap_glyphs_split gs, mem_flatMap]
  constructor
  · rintro ⟨p, hp, hmem⟩
    cases p with
    | plain x =>
      obtain rfl := mem_singleton.1 hmem
      exact .inl hp
    | pair x =>
      obtain rfl | rfl : g = .char '\x5c' ∨ g = x := by simpa [glyphs] using hmem
      · exact absurd rfl hg
      · exact .inr hp
  · rintro (hp | hp)
    · exact ⟨_, hp, .head _⟩
    · exact ⟨_, hp, .tail _ (.head _)⟩

theorem ends_plain : ends quote (plain g) = true ↔ g ∈ [.char quote, .char '\x00', .char '\n'] := by
  simp [ends, Glyph.is, or_assoc]

end StringPiece

open StringPiece (split plain pair ends ends_plain split_cons split_pair taken)

namespace Scanner

/-- The contents of a string are taken piece by piece, up to the first one that ends it; there is
a string when that one is the quote. -/
theorem stringBody_eq (hquote : quote ∈ quotes) (gs : List Glyph) (pos : Pos) :
    (stringBody quote gs pos).1 =
      if (split gs).find? (ends quote) = some (plain (.char quote)) then
        some (((split gs).takeWhile fun p => !p.ends quote).flatMap taken)
      else none := by
  have hbackslash := ne_backslash_of_mem_quotes hquote
  fun_induction stringBody quote gs pos with
  | case1 pos => rfl
  | case2 g rest pos hg =>
    obtain rfl := eq_of_beq hg
    have hends : ends quote (plain (.char quote)) = true :=
      ends_plain.2 (.head _)
    rw [split_cons (by simpa using hbackslash), find?_cons_of_pos hends,
      if_pos rfl, takeWhile_cons_of_neg (by simp [hends])]
    rfl
  | case3 g rest pos hg hend =>
    have hne : g ≠ .char '\x5c' := by
      rintro rfl
      exact absurd hend (by decide)
    have hends : ends quote (plain g) = true := by
      rw [ends, Bool.or_assoc, hend, Bool.or_true]
    rw [split_cons hne, find?_cons_of_pos hends, if_neg]
    rintro ⟨⟩
    exact hg (beq_self_eq_true _)
  | case4 g pos hg hend hescape =>
    obtain rfl := eq_of_beq hescape
    have hends : ends quote (plain (.char '\x5c')) = false := by
      rw [ends, Bool.or_assoc, Bool.eq_false_iff.2 hg, Bool.eq_false_iff.2 hend,
        Bool.or_self]
    rw [split, find?_cons_of_neg (by simp [hends]), find?_nil, if_neg (by simp)]
  | case5 g pos hg hend hescape e rest body s heq ih =>
    obtain rfl := eq_of_beq hescape
    rw [heq] at ih
    rw [split_pair, find?_cons_of_neg (by simp [ends]),
      takeWhile_cons_of_pos (by rfl), flatMap_cons]
    dsimp only at ih ⊢
    rw [ih]
    split <;> rfl
  | case6 g rest pos hg hend hescape body s heq ih =>
    have hne : g ≠ .char '\x5c' := by simpa [Glyph.is] using hescape
    have hends : ends quote (plain g) = false := by
      rw [ends, Bool.or_assoc, Bool.eq_false_iff.2 hg, Bool.eq_false_iff.2 hend,
        Bool.or_self]
    have ih := ih
    rw [heq] at ih
    rw [split_cons hne, find?_cons_of_neg (by simp [hends]),
      takeWhile_cons_of_pos (by simp [hends]), flatMap_cons]
    dsimp only at ih ⊢
    rw [ih]
    split <;> rfl

theorem string_fst (hquote : quote ∈ quotes) (rest : List Glyph) (pos : Pos) :
    (string quote ⟨.char quote :: rest, pos⟩).1 =
      if (split rest).find? (ends quote) = some (plain (.char quote)) then
        ⟨.string, ((split rest).takeWhile fun p => !p.ends quote).flatMap taken, pos⟩
      else ⟨.illegal, Token.openString, pos⟩ := by
  have hbody := stringBody_eq hquote rest (pos.enter rest.head?)
  simp only [string, advance]
  generalize stringBody quote rest (pos.enter rest.head?) = result at hbody
  obtain ⟨body, s'⟩ := result
  split at hbody <;> next h =>
    subst hbody
    simp only [h, if_true, if_false]

/-- What a quote gives that starts no principal: a string when the first piece behind it that can
end one is the same quote, and else the token of a string without its end. -/
theorem next_quote (hquote : quote ∈ quotes) {s : Scanner} {gap rest : List Glyph}
    (hgap : IsGap gap) (hs : s.rest = gap ++ .char quote :: rest)
    (hkind : s.next.1.kind ≠ .principal) :
    ∃ pos, s.next.1 =
      if (split rest).find? (ends quote) = some (plain (.char quote)) then
        ⟨.string, ((split rest).takeWhile fun p => !p.ends quote).flatMap taken, pos⟩
      else ⟨.illegal, Token.openString, pos⟩ := by
  obtain ⟨_, pos⟩ := s
  obtain rfl := hs
  obtain ⟨pos', hnext⟩ := next_gap hgap (.char quote :: rest) pos
  rw [hnext, next_quote_eq hquote] at hkind ⊢
  split at hkind
  · exact absurd rfl hkind
  · next hopens => exact ⟨pos', by rw [if_neg hopens, string_fst hquote]⟩

theorem Encodes.pieces {inner : List Glyph} {body : Bytes} (h : Encodes quote inner body) :
    (∀ p ∈ split inner, p.ends quote = false ∧ p ≠ plain (.char '\x5c')) ∧
      body = (split inner).flatMap taken := by
  induction h with
  | nil => exact ⟨forall_mem_nil _, rfl⟩
  | @glyph g gs body hg _ ih =>
    have hends : ends quote (plain g) = false := by
      rw [Bool.eq_false_iff, ne_eq, ends_plain]
      simp_all
    have hne : g ≠ .char '\x5c' := by simp_all
    rw [split_cons hne, flatMap_cons, ← ih.2]
    exact ⟨forall_mem_cons.2 ⟨⟨hends, by simpa using hne⟩, ih.1⟩, rfl⟩
  | @escape g gs body _ ih =>
    rw [split_pair, flatMap_cons, ← ih.2]
    exact ⟨forall_mem_cons.2 ⟨⟨rfl, StringPiece.noConfusion⟩, ih.1⟩, rfl⟩

end Scanner

/-! ### Strings of a source -/

variable {t : Token}

theorem Token.ReadFrom.string_eq {text behind : List Glyph}
    (h : t.ReadFrom text behind) (hkind : t.kind = .string) :
    ∃ quote ∈ Scanner.quotes, ∃ inner, text = .char quote :: (inner ++ [.char quote]) ∧
      Scanner.Encodes quote inner t.literal := by
  cases h with
  | @string quote inner _ _ _ hquote hbody =>
    exact ⟨quote, by simpa [Scanner.quotes], inner, rfl, hbody⟩
  | word => exact absurd hkind (TokenKind.ofWord_ne (by decide) _)
  | symbol hk => exact absurd hkind (ne_of_mem_of_not_mem hk (by decide))
  | decorator | int | float | principal | openString | openComment | stray => cases hkind

theorem Scanner.exists_of_mem_tokensWithin {s : Scanner}
    (hs : s.StandsIn source) (ht : t ∈ tokensWithin fuel s) :
    ∃ s' : Scanner, s'.StandsIn source ∧ s'.next.1 = t := by
  induction fuel generalizing s with
  | zero => cases ht
  | succ fuel ih =>
    rw [tokensWithin] at ht
    dsimp only at ht
    split at ht
    · exact ⟨s, hs, (mem_singleton.1 ht).symm⟩
    · obtain rfl | ht := mem_cons.1 ht
      · exact ⟨s, hs, rfl⟩
      · exact ih hs.next ht

/-- The text of the string token: behind the bytes `before`, where the token says, it stands
between two quotes, the second of which is the first one that is not escaped. -/
structure Token.IsQuoted (t : Token) (source before : Bytes) (quote : Char) (inner behind : Bytes) :
    Prop where
  quote_mem : quote ∈ Scanner.quotes
  source_eq : source = before ++ (Bytes.ofChar quote ++ (inner ++ (Bytes.ofChar quote ++ behind)))
  line_eq : t.pos.line = 1 + before.count 10
  column_eq : t.pos.column = 1 + before.lastLine.glyphs.length
  closed : ∀ p ∈ split inner.glyphs, p ≠ plain (.char quote) ∧ p ≠ plain (.char '\x5c')

/-- Every string of a source is read from such a text. -/
theorem Token.exists_isQuoted (ht : t ∈ scan source)
    (hkind : t.kind = .string) : ∃ before quote inner behind,
      t.IsQuoted source before quote inner behind ∧
        Scanner.Encodes quote inner.glyphs t.literal := by
  obtain ⟨s, hs, rfl⟩ := Scanner.exists_of_mem_tokensWithin (.ofBytes source) ht
  obtain ⟨passed, hsource, -⟩ := id hs
  cases hs.placed with
  | nul _ _ _ heof | done heof => exact absurd (hkind.symm.trans heof) (by decide)
  | token before gap text hbytes hrest hgap hread hline hcolumn =>
    obtain ⟨quote, hquote, inner, rfl, hencodes⟩ := hread.string_eq hkind
    have hinner : Glyph.AreRead inner := by
      have hread := Glyph.AreRead.of_glyphs source
      rw [hsource, hrest] at hread
      exact hread.right.right.left.tail.left
    rw [← hinner] at hencodes
    have hclosed := hencodes.pieces.1
    refine ⟨before, quote, Bytes.ofGlyphs inner, Bytes.ofGlyphs s.next.2.rest,
      ⟨hquote, ?_, hline, hcolumn, fun p hp => ⟨?_, (hclosed p hp).2⟩⟩, hencodes⟩
    · rw [hbytes]
      simp [Bytes.ofGlyphs, Glyph.bytes]
    · rintro rfl
      have hends : ends quote (plain (.char quote)) = true :=
        ends_plain.2 (.head _)
      exact absurd hends (Bool.eq_false_iff.1 (hclosed _ hp).1)

/-! ### Lines -/

def Glyph.line (gs : List Glyph) : List Glyph :=
  gs.takeWhile (· ≠ .char '\n')

theorem Glyph.line_cases (gs : List Glyph) :
    (.char '\n' ∉ gs ∧ line gs = gs) ∨ ∃ more, gs = line gs ++ .char '\n' :: more := by
  have hwhole : gs = line gs ++ gs.dropWhile (· ≠ .char '\n') := takeWhile_append_dropWhile.symm
  have hhead := head?_dropWhile_not (· ≠ char '\n') gs
  cases hdrop : gs.dropWhile (· ≠ .char '\n') with
  | nil =>
    rw [hdrop, append_nil] at hwhole
    refine .inl ⟨fun hmem => ?_, hwhole.symm⟩
    rw [hwhole] at hmem
    simpa using all_eq_true.1 all_takeWhile _ hmem
  | cons g more =>
    rw [hdrop] at hwhole hhead
    obtain rfl : g = .char '\n' := by simpa using hhead
    exact .inr ⟨more, hwhole⟩

theorem StringPiece.find?_ends_ne (hquote : quote ∈ Scanner.quotes)
    (hline : plain (.char quote) ∉ split (Glyph.line gs))
    (hend : plain (.char '\x5c') ∈ split (Glyph.line gs) → .char '\n' ∉ gs) :
    (split gs).find? (ends quote) ≠ some (plain (.char quote)) := by
  intro hfind
  obtain ⟨-, hall⟩ | ⟨more, hgs⟩ := Glyph.line_cases gs
  · rw [hall] at hline
    exact hline (mem_of_find?_eq_some hfind)
  · have hmem : .char '\n' ∈ gs := hgs ▸ mem_append_right _ mem_cons_self
    have hends : ends quote (plain (.char '\n')) = true := ends_plain.2 (by simp)
    rw [hgs, split_append fun h => hend h hmem, split_cons (by decide), find?_append,
      find?_cons_of_pos hends, Option.or_eq_some_iff] at hfind
    obtain hfind | ⟨-, hfind⟩ := hfind
    · exact hline (mem_of_find?_eq_some hfind)
    · obtain rfl : '\n' = quote := by simpa using hfind
      exact absurd hquote (by decide)

theorem Scanner.Encodes.newline_mem_iff {inner body : Bytes} (h : Encodes quote inner.glyphs body) :
    10 ∈ inner ↔ pair (.char '\n') ∈ split inner.glyphs := by
  have hbyte : 10 ∈ inner ↔ .char '\n' ∈ inner.glyphs := by
    conv_lhs => rw [← Bytes.ofGlyphs_glyphs inner, Bytes.ofGlyphs, mem_flatMap]
    refine ⟨?_, fun hmem => ⟨_, hmem, by decide⟩⟩
    rintro ⟨g, hg, hmem⟩
    rwa [← ((Glyph.AreRead.of_glyphs inner).of_mem hg).newline_mem_iff.1 hmem]
  have hplain : plain (.char '\n') ∉ split inner.glyphs := by
    intro hmem
    have hends := (h.pieces.1 _ hmem).1
    rw [ends_plain.2 (by simp)] at hends
    cases hends
  rw [hbyte, StringPiece.mem_iff (by decide), or_iff_right hplain]

/-- **A string ends on its line, unless the line feed is escaped.**  The text of a string token
holds a line feed exactly when one stands behind a backslash in it.  A quote that starts no
principal gives a string, or the illegal token of a string without its end: a string exactly when
the first piece behind it that can end one is the same quote, and so no string where its line ends
before an unescaped quote and not with a backslash that escapes the line feed. -/
theorem Token.string_lines (source : Bytes) (s : Scanner) :
    (∀ t ∈ Token.scan source, t.kind = .string →
      ∃ before quote inner behind, t.IsQuoted source before quote inner behind ∧
        (10 ∈ inner ↔ pair (.char '\n') ∈ split inner.glyphs)) ∧
    ∀ (gap rest : List Glyph) (quote : Char), quote ∈ Scanner.quotes → Scanner.IsGap gap →
      s.rest = gap ++ .char quote :: rest → s.next.1.kind ≠ .principal →
      (s.next.1.kind = .string ∨ s.next.1.kind = .illegal ∧ s.next.1.literal = openString) ∧
      (s.next.1.kind = .string ↔
        (split rest).find? (ends quote) = some (plain (.char quote))) ∧
      (plain (.char quote) ∉ split (Glyph.line rest) →
        (plain (.char '\x5c') ∈ split (Glyph.line rest) → .char '\n' ∉ rest) →
        s.next.1.kind = .illegal ∧ s.next.1.literal = openString) := by
  refine ⟨fun t ht hkind => ?_, fun gap rest quote hquote hgap hs hkind => ?_⟩
  · obtain ⟨before, quote, inner, behind, hquoted, hencodes⟩ := exists_isQuoted ht hkind
    exact ⟨before, quote, inner, behind, hquoted, hencodes.newline_mem_iff⟩
  · obtain ⟨pos, hnext⟩ := Scanner.next_quote hquote hgap hs hkind
    by_cases hfind : (split rest).find? (ends quote) = some (plain (.char quote))
    · rw [if_pos hfind] at hnext
      rw [hnext]
      exact ⟨.inl rfl, iff_of_true rfl hfind,
        fun hline hend => absurd hfind (StringPiece.find?_ends_ne hquote hline hend)⟩
    · rw [if_neg hfind] at hnext
      rw [hnext]
      exact ⟨.inr ⟨rfl, rfl⟩, iff_of_false TokenKind.noConfusion hfind, fun _ _ => ⟨rfl, rfl⟩⟩

def openQuote : Bytes :=
  " 'it\\'s\n'"

/-- A string in which a line feed is escaped, and a quote whose line ends. -/
theorem Token.string_lines_openQuote :
    (∃ before quote inner behind,
      (⟨.string, "\\\n", ⟨1, 1⟩⟩ : Token).IsQuoted "\"\\\n\"" before quote inner behind ∧
        (10 ∈ inner ↔ pair (.char '\n') ∈ split inner.glyphs)) ∧
    (Scanner.ofBytes openQuote).next.1.kind = .illegal ∧
      (Scanner.ofBytes openQuote).next.1.literal = openString := by
  obtain ⟨hstring, hquote⟩ := string_lines "\"\\\n\"" (.ofBytes openQuote)
  refine ⟨hstring _ (by decide) rfl, ?_⟩
  have hgap : Scanner.IsGap [.char ' '] := .blank (.head _) .nil
  have hread := hquote [.char ' '] (openQuote.glyphs.drop 2) '\x27' (by decide)
    hgap (by decide) (by decide)
  exact hread.2.2 (by decide) (by decide)

/-- **A string spans two lines.**  The line of the quote ends before a second quote, and yet a
string is read, whose text holds the line feed. -/
theorem Token.string_spans_lines :
    Token.scan "\"a\\\nb\"" = [⟨.string, "a\\\nb", ⟨1, 1⟩⟩, ⟨.eof, [], ⟨2, 2⟩⟩] ∧
      Glyph.line (Bytes.glyphs "a\\\nb\"") = [.char 'a', .char '\x5c'] := by
  decide

end Covenant
