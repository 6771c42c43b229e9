import Covenant.Proofs.Compile.Append
import Covenant.Proofs.Token.Quoting
import Covenant.Proofs.Tree.Single

/-!
# Strings survive

A string that is written between quotes comes out of the compiler with the same bytes: it is
scanned as one token up to its closing quote, the token is the value of the constant, and the value
is printed as a string of the target.
-/

namespace Covenant

open List
open Bytes (ofString)

open Covenant.Parser (Proceeds)
open Scanner (Avoids Gives IsGap startsWith address writeByte quotes)
open Token (symbol word)

/-! ### Sources -/

def Bytes.quoted (quote : Char) (b : Bytes) : Bytes :=
  Bytes.ofChar quote ++ (b.flatMap (writeByte quote) ++ Bytes.ofChar quote)

def constantText (quote : Char) (b : Bytes) : Bytes :=
  Bytes.ofString "const s = " ++ (b.quoted quote ++ Bytes.ofString ";")

def constantLexemes (b : Bytes) : List (TokenKind × Bytes) :=
  [(.kwConst, "const"), (.ident, "s"), (.assign, "="), (.string, b), (.semicolon, ";"), (.eof, [])]

def constantWords : List Spaced :=
  [⟨[], ⟨.kwConst, "const", {}⟩⟩, ⟨[.char ' '], word "s"⟩, ⟨[.char ' '], symbol .assign⟩]

def constantEnd (quote : Char) (b : Bytes) : List Glyph :=
  .char quote :: (Bytes.glyphs (b.flatMap (writeByte quote)) ++ [.char quote, .char ';'])

theorem glyphs_constantText (hquote : quote ∈ quotes) (b : Bytes) : (constantText quote b).glyphs =
      Spaced.write constantWords ++ ([.char ' '] ++ constantEnd quote b) := by
  have hhead : ∀ q ∈ quotes, ∀ x, (Bytes.ofChar q ++ ofString ";").head? = some x →
      isContinuation x = false :=
    Scanner.forall_quotes (by rintro _ ⟨⟩; decide) (by rintro _ ⟨⟩; decide)
  have hwords : (ofString "const s = ").glyphs =
      Spaced.write constantWords ++ [.char ' '] := by decide
  rw [constantText, Bytes.glyphs_ofString_append, hwords, Bytes.quoted, append_assoc,
    append_assoc, append_assoc, Bytes.glyphs_ofChar_append,
    Bytes.glyphs_append (hhead quote hquote), Bytes.glyphs_ofChar_append]
  rfl

/-! ### Tokens -/

theorem Token.exists_places (h : Forall₂ SameText ts vs) :
    ∃ place : Nat → Pos, ts = vs.mapIdx fun i v => { v with pos := place i } := by
  induction h with
  | nil => exact ⟨fun _ => {}, rfl⟩
  | @cons t v _ _ htv _ ih =>
    obtain ⟨place, rfl⟩ := ih
    refine ⟨fun i => i.casesOn t.pos place, ?_⟩
    rw [mapIdx_cons, ← htv.1, ← htv.2]
    rfl

theorem isGap_blank : IsGap [.char ' '] :=
  .blank (.head _) .nil

theorem gives_constantWords (more : List Glyph) :
    Gives (Spaced.write constantWords ++ ([.char ' '] ++ more))
      (constantWords.map Spaced.word) ([.char ' '] ++ more) := by
  have happart : Spaced.AreApart constantWords := by
    refine ⟨?_, by decide, .cons_cons nofun (.cons_cons nofun (.singleton _))⟩
    simp only [constantWords, forall_mem_cons]
    exact ⟨.nil, isGap_blank, isGap_blank, nofun⟩
  refine (Spaced.areScanned happart _).all fun v _ g hg => ?_
  cases hg
  exact v.runsOn_eq_false (by decide)

theorem gives_string (hquote : quote ∈ quotes) (hb : 0 ∉ b)
    (hstring : quote = '\x27' → startsWith address b.glyphs = true → b.isAddress = true) :
    Gives ([.char ' '] ++ constantEnd quote b) [⟨.string, b, {}⟩] [.char ';'] := by
  refine .one TokenKind.noConfusion fun pos => ?_
  obtain ⟨pos₁, hgap⟩ := Scanner.next_gap isGap_blank (constantEnd quote b) pos
  obtain ⟨pos₂, hnext⟩ := Scanner.next_quoted hquote (Scanner.isQuoting_writeByte hquote) hb hstring
    [.char ';'] pos₁
  exact ⟨pos₁, pos₂, hgap.trans hnext⟩

/-! ### Constants -/

theorem Tree.parse_const {source : Bytes} {c n a t s e : Token}
    (hscan : Token.scan source = [c, n, a, t, s] ++ [e]) (hc : c.kind = .kwConst)
    (hn : n.kind = .ident) (ha : a.kind = .assign) (ht : t.kind = .string)
    (hs : s.kind = .semicolon) (he : e.kind = .eof) : parse source = .ok (.ofRule .program c
      [.ofRule .constantDecl c [.leaf n, .ofRule .literal t [.leaf t]]]) := by
  have hvalue (us : List Token) (g : Grammar) : Proceeds us (Grammar.expressionRule g) t [s]
      (pure (.ofRule .literal t [.leaf t])) t [s] :=
    .expression_of_unary hs (.unary_of_primary hs (by rw [ht]; decide) (.literal (.inr ht)))
  obtain ⟨_, hparse, rfl⟩ := exists_parse_one
    (P := (· = .ofRule .constantDecl c [.leaf n, .ofRule .literal t [.leaf t]])) hscan he (.refl _)
    (by simp [Legal, hc, hn, ha, ht, hs]) (by rw [hc]; decide) fun depth hdepth => by
      obtain ⟨depth, rfl⟩ : ∃ m, depth = m + 1 := ⟨depth - 1, by simp at hdepth; omega⟩
      exact ⟨s, _, rfl, fun us => .statement_const hc (.binding_value .constantDecl [] hn ha
        (by rw [ht]; decide) hs (hvalue us (.ofDepth depth)))⟩
  exact hparse

theorem Program.render_string (target : Version) (p q r : Pos) (b : Bytes) :
    render target ⟨[.constDecl p ⟨"s", q⟩ none (.literal b r (.string b))]⟩ =
      .ok ("(define-constant s " ++ (Quoted.encode b ++ ")")) := by
  change Except.ok (ofString "(" ++ (ofString "define-constant" ++
    (ofString " s" ++ (ofString " " ++ Quoted.encode b ++ []))) ++
      ofString ")" ++ []) = _
  simp only [append_assoc, append_nil]
  rfl

/-- The string survives: the constant is scanned with the string as one token, behind which only the
semicolon is left, and it is compiled to a constant with that string. -/
structure Options.Keeps (o : Options) (quote : Char) (b : Bytes) : Prop where
  tokens : (Token.scan (constantText quote b)).map Token.lexeme = constantLexemes b
  closed : ((Scanner.ofBytes (constantText quote b)).after 4).rest = [.char ';']
  compiled : o.compile (constantText quote b) =
    .ok ("(define-constant s " ++ (Quoted.encode b ++ ")"))

theorem Options.keeps {o : Options} {target : Version} (hversion : o.version = .ok target)
    (hquote : quote ∈ quotes) (hb : 0 ∉ b)
    (hstring : quote = '\x27' → startsWith address b.glyphs = true → b.isAddress = true) :
    o.Keeps quote b := by
  have hfour : Gives (constantText quote b).glyphs
      (constantWords.map Spaced.word ++ [⟨.string, b, {}⟩]) [.char ';'] := by
    rw [glyphs_constantText hquote]
    exact (gives_constantWords _).trans (gives_string hquote hb hstring)
  obtain ⟨ts, pos, hscan, hts⟩ := (hfour.trans .semicolon).scan_eq
  obtain ⟨place, rfl⟩ := Token.exists_places hts
  simp only [constantWords, map_cons, map_nil, cons_append, nil_append,
    mapIdx_cons, mapIdx_nil] at hscan
  refine ⟨by rw [hscan]; rfl, hfour.rest_after _, ?_⟩
  have hparse := Tree.parse_const hscan rfl rfl rfl rfl rfl rfl
  exact compile_eq_ok_iff.2 ⟨target, _,
    ⟨[.constDecl (place 0) ⟨"s", place 1⟩ none (.literal b (place 3) (.string b))]⟩,
    hversion, hparse, rfl, Program.render_string target _ _ _ b⟩

/-- **Strings survive.**  Between double quotes every string without a NUL byte survives.  Between
single quotes it does so, too, unless the text starts with `S`, the letter of a network and a
further capital or digit; and even then when all of it is an address.  Otherwise a principal is
read. -/
theorem Options.compile_quoted {o : Options} {target : Version} (hversion : o.version = .ok target)
    {b : Bytes} (hb : 0 ∉ b) :
    o.Keeps '\x22' b ∧
    ((startsWith address b.glyphs = true → b.isAddress = true) → o.Keeps '\x27' b) ∧
    (startsWith address b.glyphs = true → b.isAddress = false →
      ∃ t, (Token.scan (constantText '\x27' b))[3]? = some t ∧ t.kind = .principal) := by
  refine ⟨keeps hversion (by decide) hb nofun, fun h => keeps hversion (by decide) hb fun _ => h,
    fun hstart haddress => ?_⟩
  have hwords := gives_constantWords (constantEnd '\x27' b)
  rw [← glyphs_constantText (by decide)] at hwords
  obtain ⟨ts, ⟨_, pos⟩, hsteps, rfl, hts⟩ :=
    hwords (Pos.enter ⟨1, 0⟩ (constantText '\x27' b).glyphs.head?)
  obtain ⟨pos', hgap⟩ := Scanner.next_gap isGap_blank (constantEnd '\x27' b) pos
  have hkind := Scanner.kind_next_quoted (Scanner.isQuoting_writeByte (by decide)) hb hstart
    haddress [.char ';'] pos'
  have hscan : Token.scan (constantText '\x27' b) = ts ++ Scanner.tokens _ := hsteps.tokens_eq
  obtain ⟨us, hus⟩ := Scanner.tokens_eq_cons ⟨[.char ' '] ++ constantEnd '\x27' b, pos⟩
  refine ⟨_, ?_, hkind⟩
  rw [hscan, hus, hgap, getElem?_append_right (by rw [hts.length_eq]; decide), hts.length_eq]
  rfl

/-- Stray bytes, both quotes, line ends, a tab, a comment that is not closed, and a backslash before
the encoding of a character. -/
def oddText : Bytes :=
  [0xFF, 13, 39, 34, 10, 9, 47, 42, 92, 0xC3, 0xA9, 0xE2, 0x82]

/-- A text that is hard to quote, an address, and a text that only starts as an address. -/
theorem Options.compile_quoted_oddText :
    ({} : Options).Keeps '\x22' oddText ∧ ({} : Options).Keeps '\x27' oddText ∧
    ({} : Options).Keeps '\x27' "SPARTA.x" ∧
    ∃ t, (Token.scan (constantText '\x27' "SP2, ok"))[3]? = some t ∧ t.kind = .principal := by
  have hodd := compile_quoted (o := {}) rfl (by decide : 0 ∉ oddText)
  have haddress := compile_quoted (o := {}) rfl (by decide : 0 ∉ Bytes.ofString "SPARTA.x")
  have hstart := compile_quoted (o := {}) rfl (by decide : 0 ∉ Bytes.ofString "SP2, ok")
  exact ⟨hodd.1, hodd.2.1 (by decide), haddress.2.1 fun _ => by decide,
    hstart.2.2 (by decide) (by decide)⟩

end Covenant
