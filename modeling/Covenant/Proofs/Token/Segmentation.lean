import Covenant.Proofs.Token.Reading

/-!
# A source as tokens and gaps

Scanning cuts a source into pieces: gaps of blanks and comments, and between them the texts that
the tokens were read from.  Nothing is lost and nothing is read twice, up to the place where
scanning stops, which is the end of the source or a NUL character.
-/

namespace Covenant

open List Bytes

/-! ### Segments -/

/-- A piece of a source: a gap, and the text of the token behind it. -/
structure Segment where
  gap : List Glyph
  lexeme : List Glyph
  token : Token

namespace Segment

def glyphs (x : Segment) : List Glyph :=
  x.gap ++ x.lexeme

/-- The segment is cut as it should be when `behind` follows it. -/
structure IsFaithful (x : Segment) (behind : List Glyph) : Prop where
  gap : Scanner.IsGap x.gap
  lexeme_ne_nil : x.lexeme ≠ []
  literal : x.token.kind ∉ [.string, .principal, .illegal] →
    x.token.literal = ofGlyphs x.lexeme
  principal : x.token.kind = .principal →
    ∃ address, x.lexeme = .char '\x27' :: address ∧ x.token.literal = ofGlyphs address
  word : x.token.kind ∈ .decorator :: TokenKind.words → Scanner.Avoids Scanner.isNamePart behind
  number : x.token.kind = .int ∨ x.token.kind = .float → Scanner.Avoids Scanner.isDigit behind
  integer : x.token.kind = .int → Scanner.startsWith Scanner.fraction behind = false
  symbol : x.token.kind ∈ TokenKind.symbols → ∀ k ∈ TokenKind.symbols,
    k.glyphs <+: x.lexeme ++ behind → k.glyphs.length ≤ x.lexeme.length
  readFrom : x.token.ReadFrom x.lexeme behind

theorem isFaithful_of_readFrom {x : Segment} {behind : List Glyph} (hgap : Scanner.IsGap x.gap)
    (h : x.token.ReadFrom x.lexeme behind) : x.IsFaithful behind :=
  ⟨hgap, h.ne_nil, h.literal_eq, h.principal_eq, h.avoids_namePart, h.avoids_digit,
    h.not_startsWith_fraction, h.symbol_longest, h⟩

end Segment

/-- A text, cut into segments, a last gap and what is left behind the place where scanning
stops. -/
structure Segmentation (gs : List Glyph) where
  segments : List Segment
  last : List Glyph
  rest : List Glyph
  covers : gs = segments.flatMap Segment.glyphs ++ last ++ rest
  isFaithful : ∀ before x after, segments = before ++ x :: after →
    x.IsFaithful (after.flatMap Segment.glyphs ++ last ++ rest)
  isLastGap : Scanner.IsLastGap last
  isStop : Scanner.IsStop rest

theorem length_le_length_flatMap {α β : Type} {f : α → List β} {xs : List α}
    (h : ∀ x ∈ xs, f x ≠ []) : xs.length ≤ (xs.flatMap f).length := by
  induction xs with
  | nil => exact Nat.le_refl _
  | cons x xs ih =>
    obtain ⟨hx, hxs⟩ := forall_mem_cons.1 h
    have hpos := length_pos_iff.2 hx
    have hle := ih hxs
    rw [flatMap_cons, length_append, length_cons]
    omega

namespace Segmentation

def stop (last rest : List Glyph) (h : gs = last ++ rest) (hlast : Scanner.IsLastGap last)
    (hrest : Scanner.IsStop rest) : Segmentation gs where
  segments := []
  last := last
  rest := rest
  covers := h
  isFaithful _ _ _ h := absurd (h.symm ▸ mem_append_right _ mem_cons_self) not_mem_nil
  isLastGap := hlast
  isStop := hrest

def cons {behind : List Glyph} (x : Segment) (c : Segmentation behind)
    (h : gs = x.glyphs ++ behind) (hx : x.IsFaithful behind) : Segmentation gs where
  segments := x :: c.segments
  last := c.last
  rest := c.rest
  covers := by
    have hcovers := c.covers
    rw [append_assoc] at hcovers
    rw [h, flatMap_cons, append_assoc, append_assoc, ← hcovers]
  isFaithful before y after hsplit := by
    cases before with
    | nil =>
      obtain ⟨rfl, rfl⟩ := List.cons.inj hsplit
      rwa [← c.covers]
    | cons z before => exact c.isFaithful before y after (List.cons.inj hsplit).2
  isLastGap := c.isLastGap
  isStop := c.isStop

theorem isFaithful_of_mem (c : Segmentation gs) (hx : x ∈ c.segments) :
    ∃ behind, x.IsFaithful behind := by
  obtain ⟨before, after, hsplit⟩ := append_of_mem hx
  exact ⟨_, c.isFaithful before x after hsplit⟩

theorem length_segments_le (c : Segmentation gs) : c.segments.length ≤ gs.length := by
  have hle : c.segments.length ≤ (c.segments.flatMap Segment.glyphs).length := by
    refine length_le_length_flatMap fun x hx => ?_
    obtain ⟨behind, hfaithful⟩ := c.isFaithful_of_mem hx
    exact append_ne_nil_of_right_ne_nil _ hfaithful.lexeme_ne_nil
  have hcovers := congrArg List.length c.covers
  rw [length_append, length_append] at hcovers
  omega

end Segmentation

namespace Scanner

/-! ### One token after the other -/

theorem token_of_isStop {s : Scanner} (h : IsStop s.rest) : s.token = (⟨.eof, [], s.pos⟩, s) := by
  rw [token]
  obtain h | ⟨more, h⟩ := h
  · rw [h]
  · rw [h]
    rfl

theorem skipTrivia_of_isStop {s : Scanner} (h : IsStop s.rest) : s.skipTrivia = .ready s := by
  obtain ⟨rest, pos⟩ := s
  obtain rfl | ⟨more, rfl⟩ := h
  · rfl
  · rfl

theorem next_cases (s : Scanner) :
    (s.next.1.kind = .eof ∧ s.next.2.next = s.next ∧ ∃ last, s.rest = last ++ s.next.2.rest ∧
      IsLastGap last ∧ IsStop s.next.2.rest) ∨
    ∃ gap text, s.rest = gap ++ text ++ s.next.2.rest ∧ IsGap gap ∧
      s.next.1.ReadFrom text s.next.2.rest := by
  have hdivides := skip_divides s.pos (show Mode.blank.Holds [] s.rest from rfl)
  rw [next, skipTrivia]
  cases hskip : skip .blank s.rest s.pos with
  | openComment start s₁ =>
    rw [hskip] at hdivides
    obtain ⟨gap, body, hrest, hgap, hbody, hstop⟩ := hdivides
    refine .inr ⟨gap, _, ?_, hgap, .openComment hbody hstop⟩
    rw [append_assoc]
    exact hrest
  | ready s₁ =>
    rw [hskip] at hdivides
    obtain ⟨gap, hrest, hgap⟩ := hdivides
    obtain ⟨hstop, htoken⟩ | ⟨text, htext, hread⟩ := s₁.token_cases
    · have hlast : IsLastGap gap := hgap.elim IsGap.isLastGap And.left
      have hnext : s₁.next = (⟨.eof, [], s₁.pos⟩, s₁) := by
        rw [next, skipTrivia_of_isStop hstop, ← htoken]
      dsimp only
      rw [htoken]
      exact .inl ⟨rfl, hnext, gap, hrest, hlast, hstop⟩
    · have hgap : IsGap gap := hgap.resolve_right fun h =>
        hread.kind_ne_eof (by rw [token_of_isStop h.2])
      refine .inr ⟨gap, text, ?_, hgap, hread⟩
      rw [append_assoc, ← htext]
      exact hrest

/-- The tokens that a scanner answers, one call after the other, are those of a segmentation, and
then the end of input forever.  The scanner never passes the stop. -/
theorem exists_segmentation (s : Scanner) : ∃ (c : Segmentation s.rest) (e : Token), e.kind = .eof ∧
      (∀ i, (s.after i).next.1 = (c.segments.map Segment.token)[i]?.getD e) ∧
      ∀ i, c.rest <:+ (s.after i).rest := by
  induction hn : s.rest.length using Nat.strongRecOn generalizing s with
  | ind n ih =>
    subst hn
    obtain ⟨heof, hstays, last, hrest, hlast, hstop⟩ | ⟨gap, text, hrest, hgap, hread⟩ :=
      s.next_cases
    · have hfixed (i : Nat) : s.next.2.after i = s.next.2 :=
        Function.iterate_fixed (by rw [hstays]) i
      refine ⟨.stop last _ hrest hlast hstop, s.next.1, heof, fun i => ?_, fun i => ?_⟩
      · cases i with
        | zero => rfl
        | succ i =>
          rw [after_succ, hfixed, hstays]
          rfl
      · cases i with
        | zero => exact ⟨last, hrest.symm⟩
        | succ i =>
          rw [after_succ, hfixed]
          exact suffix_refl _
    · obtain ⟨c, e, he, hcalls, hsuffix⟩ := ih _ (length_next_lt hread.kind_ne_eof) s.next.2 rfl
      have hx : Segment.IsFaithful ⟨gap, text, s.next.1⟩ s.next.2.rest :=
        Segment.isFaithful_of_readFrom hgap hread
      refine ⟨.cons ⟨gap, text, s.next.1⟩ c hrest hx, e, he, fun i => ?_, fun i => ?_⟩
      · cases i with
        | zero => rfl
        | succ i => exact hcalls i
      · cases i with
        | zero => exact (hsuffix 0).trans ⟨gap ++ text, hrest.symm⟩
        | succ i => exact hsuffix i

theorem tokensWithin_of_after {s : Scanner} {ts : List Token} {e : Token}
    (hfuel : ts.length < fuel) (hts : ∀ t ∈ ts, t.kind ≠ .eof) (he : e.kind = .eof)
    (h : ∀ i, (s.after i).next.1 = ts[i]?.getD e) : tokensWithin fuel s = ts ++ [e] := by
  induction fuel generalizing s ts with
  | zero => exact absurd hfuel (Nat.not_lt_zero _)
  | succ fuel ih =>
    rw [tokensWithin]
    have hfirst := h 0
    dsimp only
    cases ts with
    | nil =>
      have hfirst : s.next.1 = e := hfirst
      rw [hfirst, if_pos he]
      rfl
    | cons t ts =>
      obtain ⟨ht, hts⟩ := forall_mem_cons.1 hts
      have hfirst : s.next.1 = t := hfirst
      rw [hfirst, if_neg ht, ih (Nat.lt_of_succ_lt_succ hfuel) hts fun i => h (i + 1)]
      rfl

end Scanner

theorem Bytes.ofGlyphs_cons (g : Glyph) (gs : List Glyph) :
    ofGlyphs (g :: gs) = g.bytes ++ ofGlyphs gs :=
  flatMap_cons

theorem Bytes.ofGlyphs_append (gs hs : List Glyph) :
    ofGlyphs (gs ++ hs) = ofGlyphs gs ++ ofGlyphs hs :=
  flatMap_append

theorem Glyph.bytes_ne_nil (g : Glyph) : g.bytes ≠ [] := by
  cases g with
  | char c =>
    obtain ⟨b, bs, hc, -⟩ := read_ofChar c []
    rw [bytes, hc]
    exact cons_ne_nil _ _
  | stray b => exact cons_ne_nil _ _

theorem Bytes.length_glyphs_le (s : Bytes) : s.glyphs.length ≤ s.length := by
  have hle := length_le_length_flatMap fun g (_ : g ∈ s.glyphs) => g.bytes_ne_nil
  rwa [← ofGlyphs, ofGlyphs_glyphs] at hle

def Segment.bytes (x : Segment) : Bytes :=
  ofGlyphs x.gap ++ ofGlyphs x.lexeme

namespace Segmentation

variable {source : Bytes} (c : Segmentation source.glyphs)

def scanned : Bytes :=
  c.segments.flatMap Segment.bytes ++ ofGlyphs c.last

theorem scanned_eq : c.scanned = ofGlyphs (c.segments.flatMap Segment.glyphs ++ c.last) := by
  have hsegments : ofGlyphs (c.segments.flatMap Segment.glyphs) =
      c.segments.flatMap Segment.bytes := by
    rw [ofGlyphs, flatMap_assoc]
    refine flatMap_congr fun x _ => ?_
    rw [Segment.glyphs, flatMap_append]
    rfl
  rw [scanned, ← hsegments, ofGlyphs, ofGlyphs, ofGlyphs, flatMap_append]

theorem source_eq : source = c.scanned ++ ofGlyphs c.rest :=
  calc source
    _ = ofGlyphs source.glyphs := (ofGlyphs_glyphs source).symm
    _ = ofGlyphs (c.segments.flatMap Segment.glyphs ++ c.last ++ c.rest) :=
      congrArg _ c.covers
    _ = c.scanned ++ ofGlyphs c.rest := by
      rw [c.scanned_eq, ofGlyphs, flatMap_append]
      rfl

end Segmentation

theorem Scanner.IsStop.head_eq (h : IsStop gs) : ∀ b, (ofGlyphs gs).head? = some b → b = 0 := by
  obtain rfl | ⟨more, rfl⟩ := h
  · rintro _ ⟨⟩
  · rintro _ ⟨⟩
    rfl

theorem Token.scan_eq_segments {source : Bytes} (c : Segmentation source.glyphs) {e : Token}
    (he : e.kind = .eof)
    (h : ∀ i, ((Scanner.ofBytes source).after i).next.1 =
      (c.segments.map Segment.token)[i]?.getD e) :
    scan source = c.segments.map Segment.token ++ [e] := by
  refine Scanner.tokensWithin_of_after ?_ ?_ he h
  · rw [length_map]
    exact Nat.lt_succ_of_le c.length_segments_le
  · intro t ht
    obtain ⟨x, hx, rfl⟩ := mem_map.1 ht
    obtain ⟨behind, hfaithful⟩ := c.isFaithful_of_mem hx
    exact hfaithful.readFrom.kind_ne_eof

/-- **The tokens of a source are a faithful segmentation of it.**  The lexemes with the gaps
between them are the source up to the stop, which is its end or a NUL byte; each call answers the
token of the next segment, and all calls behind the last one the end of input. -/
theorem Token.scan_segmentation (source : Bytes) :
    ∃ (c : Segmentation source.glyphs) (e : Token),
      source = c.segments.flatMap Segment.bytes ++ ofGlyphs c.last ++ ofGlyphs c.rest ∧
      (∀ b, (ofGlyphs c.rest).head? = some b → b = 0) ∧
      c.segments.length ≤ source.length ∧ e.kind = .eof ∧
      (∀ i, ((Scanner.ofBytes source).after i).next.1 =
        (c.segments.map Segment.token)[i]?.getD e) ∧
      Token.scan source = c.segments.map Segment.token ++ [e] := by
  obtain ⟨c, e, he, hcalls, -⟩ := (Scanner.ofBytes source).exists_segmentation
  have hlength := Nat.le_trans c.length_segments_le source.length_glyphs_le
  exact ⟨c, e, c.source_eq, c.isStop.head_eq, hlength, he, hcalls, scan_eq_segments c he hcalls⟩

end Covenant
