import Covenant.Proofs.Compile.Append
import Covenant.Proofs.Token.Segmentation

/-!
# What an accepted source is read from

A source that is compiled is read up to the place where scanning stops: every byte before it
belongs to a token or to a gap of blanks and comments, and no token is illegal.  The end of input
is told by a NUL character, so that a NUL byte outside of strings stops the scan as well, and what
stands behind it is not read at all.
-/

namespace Covenant

open List

/-! ### The part before the stop -/

theorem Bytes.eq_of_ofGlyphs_eq {gs hs more rest : List Glyph} (h : gs ++ more = hs ++ rest)
    (hbytes : ofGlyphs gs = ofGlyphs hs) : gs = hs := by
  have hnil {xs : List Glyph} (hxs : ofGlyphs xs = []) : xs = [] := by
    have hle := length_le_length_flatMap fun g (_ : g ∈ xs) => g.bytes_ne_nil
    rw [← ofGlyphs, hxs] at hle
    exact eq_nil_of_length_eq_zero (Nat.le_zero.1 hle)
  obtain ⟨xs, rfl, -⟩ | ⟨xs, rfl, -⟩ := append_eq_append_iff.1 h
  · have hxs : ofGlyphs xs = [] := by simpa [ofGlyphs] using hbytes
    rw [hnil hxs, append_nil]
  · have hxs : ofGlyphs xs = [] := by simpa [ofGlyphs] using hbytes
    rw [hnil hxs, append_nil]

namespace Segmentation

variable {source : Bytes} (c : Segmentation source.glyphs)

theorem glyphs_scanned : c.scanned.glyphs = c.segments.flatMap Segment.glyphs ++ c.last := by
  have hsource : source.glyphs = c.scanned.glyphs ++ (Bytes.ofGlyphs c.rest).glyphs := by
    have hglyphs : (c.scanned ++ Bytes.ofGlyphs c.rest).glyphs =
        c.scanned.glyphs ++ (Bytes.ofGlyphs c.rest).glyphs := by
      refine Bytes.glyphs_append fun b hb => ?_
      rw [c.isStop.head_eq b hb]
      decide
    rwa [← c.source_eq] at hglyphs
  refine Bytes.eq_of_ofGlyphs_eq (hsource.symm.trans c.covers) ?_
  rw [Bytes.ofGlyphs_glyphs, c.scanned_eq]

def strings : List Glyph :=
  (c.segments.filter (·.token.kind = .string)).flatMap Segment.lexeme

variable {c}

theorem nul_notMem {x : Segment} (hx : x ∈ c.segments) (hlegal : x.token.kind ≠ .illegal) :
    .char '\x00' ∉ x.gap ∧ (x.token.kind ≠ .string → .char '\x00' ∉ x.lexeme) := by
  obtain ⟨behind, hfaithful⟩ := c.isFaithful_of_mem hx
  exact ⟨hfaithful.gap.nul_notMem, hfaithful.readFrom.nul_notMem hlegal⟩

theorem count_segments {xs : List Segment}
    (h : ∀ x ∈ xs, .char '\x00' ∉ x.gap ∧ (x.token.kind ≠ .string → .char '\x00' ∉ x.lexeme)) :
    (xs.flatMap Segment.glyphs).count (.char '\x00') =
      ((xs.filter (·.token.kind = .string)).flatMap Segment.lexeme).count (.char '\x00') := by
  induction xs with
  | nil => rfl
  | cons x xs ih =>
    obtain ⟨⟨hgap, hlexeme⟩, hxs⟩ := forall_mem_cons.1 h
    rw [flatMap_cons, count_append, ih hxs, Segment.glyphs, count_append,
      count_eq_zero.2 hgap, Nat.zero_add]
    by_cases hkind : x.token.kind = .string
    · rw [filter_cons_of_pos (by simpa using hkind), flatMap_cons, count_append]
    · rw [filter_cons_of_neg (by simpa using hkind), count_eq_zero.2 (hlexeme hkind),
        Nat.zero_add]

theorem rest_eq_nil_of_notMem (h : .char '\x00' ∉ c.rest) : c.rest = [] := by
  obtain hnil | ⟨more, hmore⟩ := c.isStop
  · exact hnil
  · exact absurd (hmore ▸ mem_cons_self) h

/-- Nothing is left exactly when all NUL characters of the source stand in strings. -/
theorem rest_eq_nil_iff (hlegal : ∀ x ∈ c.segments, x.token.kind ≠ .illegal) :
    c.rest = [] ↔ source.glyphs.count (.char '\x00') = c.strings.count (.char '\x00') := by
  have hcount : source.glyphs.count (.char '\x00') =
      c.strings.count (.char '\x00') + c.rest.count (.char '\x00') :=
    calc source.glyphs.count (.char '\x00')
      _ = (c.segments.flatMap Segment.glyphs ++ c.last ++ c.rest).count (.char '\x00') :=
        congrArg _ c.covers
      _ = _ := by
        rw [count_append, count_append, count_eq_zero.2 c.isLastGap.nul_notMem,
          count_segments fun x hx => nul_notMem hx (hlegal x hx)]
        rfl
  constructor
  · intro hnil
    rw [hcount, hnil]
    rfl
  · intro heq
    exact rest_eq_nil_of_notMem (count_eq_zero.1 (by omega))

theorem rest_eq_nil (h : 0 ∉ source) : c.rest = [] := by
  refine rest_eq_nil_of_notMem fun hmem => h ?_
  rw [c.source_eq]
  exact mem_append_right _ (mem_flatMap.2 ⟨_, hmem, by decide⟩)

end Segmentation

/-- The part before the stop has the tokens of the source. -/
theorem Token.exists_scanned (source : Bytes) :
    ∃ (c : Segmentation source.glyphs) (e : Token), e.kind = .eof ∧
      scan source = c.segments.map Segment.token ++ [e] ∧
      ((∀ t ∈ scan source, t.kind ≠ .illegal) →
        Forall₂ SameText (scan c.scanned) (scan source)) := by
  obtain ⟨c, e, he, hcalls, hsuffix⟩ := (Scanner.ofBytes source).exists_segmentation
  refine ⟨c, e, he, scan_eq_segments c he hcalls, fun hlegal => ?_⟩
  have hextends : Scanner.Extends c.rest (.ofBytes c.scanned) (.ofBytes source) := by
    have hcovers := c.covers
    rwa [← c.glyphs_scanned] at hcovers
  exact Scanner.tokensWithin_extends hextends c.isStop (Nat.lt_succ_self _) (Nat.lt_succ_self _)
    (.inr ⟨hlegal, fun i => (hsuffix i).length_le⟩)

namespace Options

theorem compile_eq_ok_of_sameText {o : Options} {source source' out : Bytes}
    (h : Forall₂ Token.SameText (Token.scan source) (Token.scan source'))
    (hout : o.compile source = .ok out) : o.compile source' = .ok out := by
  obtain ⟨target, t, p, hv, ht, hp, hrender⟩ := compile_eq_ok_iff.1 hout
  have hlike := Tree.like_parse Token.tokenLike (Token.alike_of_sameText h)
  rw [ht] at hlike
  cases hu : Tree.parse source' with
  | error f =>
    rw [hu] at hlike
    cases hlike
  | ok u =>
    rw [hu] at hlike
    exact compile_of_like hv hu hlike hp (Program.renderable_of_parse ht hp) hrender

/-- **An accepted source is read up to the place where scanning stops.**  Every byte before it
belongs to a token or to a gap, and that part alone is compiled to the same text.  It is all of the
source exactly when every NUL character stands in a string, so when there is none. -/
theorem compile_scanned {o : Options} {source out : Bytes} (h : o.compile source = .ok out) :
    ∃ (c : Segmentation source.glyphs) (e : Token), e.kind = .eof ∧
      Token.scan source = c.segments.map Segment.token ++ [e] ∧
      (∀ x ∈ c.segments, x.token.kind ≠ .illegal) ∧
      source = c.scanned ++ Bytes.ofGlyphs c.rest ∧
      (c.rest = [] ↔
        source.glyphs.count (.char '\x00') = c.strings.count (.char '\x00')) ∧
      (0 ∉ source → c.rest = []) ∧
      o.compile c.scanned = .ok out := by
  obtain ⟨c, e, he, hscan, hsame⟩ := Token.exists_scanned source
  obtain ⟨-, t, -, -, ht, -, -⟩ := compile_eq_ok_iff.1 h
  have hlegal := (Token.isApart_scan ht).legal
  have hsegments : ∀ x ∈ c.segments, x.token.kind ≠ .illegal := by
    intro x hx
    refine hlegal _ ?_
    rw [hscan]
    exact mem_append_left _ (mem_map_of_mem hx)
  have hflip : Forall₂ Token.SameText (Token.scan source) (Token.scan c.scanned) :=
    (hsame hlegal).flip.imp fun _ _ ⟨hkind, hliteral⟩ => ⟨hkind.symm, hliteral.symm⟩
  exact ⟨c, e, he, hscan, hsegments, c.source_eq, Segmentation.rest_eq_nil_iff hsegments,
    Segmentation.rest_eq_nil, compile_eq_ok_of_sameText hflip h⟩

/-- A string with a NUL character in it, and one more NUL character behind the statement. -/
def twoNuls : Bytes :=
  "const a = \"\\\x00\";\x00const b = 2;"

/-- The scan passes the first NUL character and stops on the second. -/
theorem compile_scanned_twoNuls :
    ({} : Options).compile twoNuls = .ok "(define-constant a \"\\\\\\x00\")" ∧
      ∃ (c : Segmentation twoNuls.glyphs) (e : Token), e.kind = .eof ∧
        Token.scan twoNuls = c.segments.map Segment.token ++ [e] ∧
        (∀ x ∈ c.segments, x.token.kind ≠ .illegal) ∧
        twoNuls = c.scanned ++ Bytes.ofGlyphs c.rest ∧
        (c.rest = [] ↔
          twoNuls.glyphs.count (.char '\x00') = c.strings.count (.char '\x00')) ∧
        (0 ∉ twoNuls → c.rest = []) ∧
        ({} : Options).compile c.scanned = .ok "(define-constant a \"\\\\\\x00\")" := by
  have h : ({} : Options).compile twoNuls = .ok "(define-constant a \"\\\\\\x00\")" :=
    eq_ok_of_toOption (by decide)
  exact ⟨h, compile_scanned h⟩

/-- **A NUL byte between two statements is taken for the end of input.**  Each of the statements is
compiled, but behind the NUL byte the second one is skipped. -/
theorem compile_skips_behind_nul :
    ({} : Options).compile "const a = 1;" = .ok "(define-constant a 1)" ∧
      ({} : Options).compile "const b = 2;" = .ok "(define-constant b 2)" ∧
      ({} : Options).compile "const a = 1;\x00const b = 2;" = .ok "(define-constant a 1)" :=
  ⟨eq_ok_of_toOption (by decide), eq_ok_of_toOption (by decide),
    eq_ok_of_toOption (by decide)⟩

end Options

end Covenant
